import Pixy.Pool.Places

/-!
# Every posted work is run once and called back once

`Located` (`Places.lean`) read in the terms of the program: a work is in exactly one place
(`Located.in_iff`), everything that can happen to it happens once for every post (`times_eq`), and
when the workers have exited nothing is left (`Located.everyWorkOnce`). `every_work_once` is the
result for every reachable state.
-/

namespace Pixy.Pool

open Pixy.Found

variable {n : ℕ} {W : Type} [DecidableEq W]

/-! ## What it means for the works -/

/-- What it is for a work to be in a place. -/
def ThreadPool.In (self : ThreadPool n W) (work : W) : Place n → Prop
  | .free => work ∉ self.queue ∧ (∀ worker stage, (self.workers worker).load ≠ some (work, stage)) ∧
    (∀ byte ∈ self.pipe, byte.work ≠ work) ∧ work ∉ self.batch
  | .queue => self.workList.count (.work work) = 1
  | .worker worker stage => (self.workers worker).load = some (work, stage)
  | .pipe => ∀ place, self.pipe.count ⟨work, place⟩ = 1
  | .batch => self.batch.count work = 1

/-- How often a work is in the list of the pool is how often it is among the works of that list, the
stop marker aside. -/
theorem count_workList (list : List (WorkListItem W)) (work : W) :
    list.count (.work work) = (list.filterMap WorkListItem.work?).count work := by
  induction list with
  | nil => rfl
  | cons item list ih =>
      cases item <;> simp [List.count_cons, List.filterMap_cons, WorkListItem.work?, ih]

/-- Each byte of a work's pointer is in the pipe as often as its pointer is. -/
theorem count_encode (works : List W) (work : W) (place : Fin 8) :
    (encode works).count ⟨work, place⟩ = works.count work := by
  induction works with
  | nil => rfl
  | cons other works ih =>
      have hone : (pointerBytes other).count ⟨work, place⟩ = if other = work then 1 else 0 := by
        split_ifs with ho
        · subst ho
          refine List.count_eq_one_of_mem ?_ (List.mem_map_of_mem (List.mem_finRange place))
          exact (List.nodup_finRange 8).map fun _ _ h => (Byte.mk.inj h).2
        · refine List.count_eq_zero.mpr fun hin => ?_
          obtain ⟨k, -, hk⟩ := List.mem_map.mp hin
          exact ho (Byte.mk.inj hk).1
      rw [encode, List.flatMap_cons, List.count_append, hone, List.count_cons, ← encode, ih]
      simp only [beq_iff_eq]
      omega

/-- In a list without repetitions a work is counted once exactly if it is in it. -/
theorem count_eq_one {l : List W} (h : l.Nodup) {work : W} : l.count work = 1 ↔ work ∈ l :=
  ⟨fun hc => List.count_pos_iff.mp (by omega), List.count_eq_one_of_mem h⟩

omit [DecidableEq W] in
/-- A byte of a work's pointer is in the pipe exactly if the pointer is. -/
theorem mem_encode {works : List W} {work : W} : (∃ byte ∈ encode works, byte.work = work) ↔
    work ∈ works := by
  simp only [encode, List.mem_flatMap, pointerBytes, List.mem_map]
  constructor
  · rintro ⟨_, ⟨other, hin, k, -, rfl⟩, rfl⟩
    exact hin
  · exact fun hin => ⟨⟨work, 0⟩, ⟨work, hin, 0, List.mem_finRange 0, rfl⟩, rfl⟩

/-- **A work is in the place its phase names, and in no other.** -/
theorem Located.in_iff {s : ThreadPool n W} {phase : W → WorkPhase n} (h : Located s phase)
    (work : W) (place : Place n) : s.In work place ↔ (phase work).place = place := by
  obtain ⟨works, hpipe, hnodup, hmem⟩ := h.pipe
  cases place with
  | queue =>
      rw [← h.queue]
      exact (iff_of_eq (congrArg (· = 1) (count_workList _ _))).trans (count_eq_one h.queue_nodup)
  | worker worker stage => exact h.worker worker work stage
  | pipe =>
      rw [← hmem, ← count_eq_one hnodup]
      simp only [ThreadPool.In, hpipe, count_encode, forall_const]
  | batch =>
      rw [← h.batch]
      exact count_eq_one h.batch_nodup
  | free =>
      have hbytes : (∀ byte ∈ s.pipe, byte.work ≠ work) ↔ (phase work).place ≠ .pipe := by
        rw [ne_eq, ← hmem, ← mem_encode, ← hpipe]
        simp
      simp only [ThreadPool.In, hbytes, h.queue, h.batch, ne_eq, h.worker]
      cases hp : (phase work).place <;> simp

/-- The number of an event in the life of a work. -/
def WorkEvent.rank : WorkEvent n → ℕ
  | .posted _ => 0
  | .taken _ => 1
  | .started .. => 2
  | .returned _ => 3
  | .written _ => 4
  | .read => 5
  | .calledBack .. => 6

/-- The number of events that are behind a work since it was last posted. -/
def WorkPhase.rank : WorkPhase n → ℕ
  | .queued _ => 1
  | .held .. => 2
  | .executing .. => 3
  | .executed .. => 4
  | .piped _ => 5
  | .collected _ => 6
  | .idle => 7

/-- How often an event of that number happened to a work. -/
def times (rank : ℕ) (work : W) (log : List (W × WorkEvent n)) : ℕ :=
  log.countP fun entry => entry.1 = work ∧ entry.2.rank = rank

omit [DecidableEq W] in
/-- Every event leads its work one stage on, and only the post begins again with the first. -/
theorem WorkEvent.next_rank {event : WorkEvent n} {before after : WorkPhase n}
    (h : event.next before = some after) :
    (event.rank = 0 ∧ before = .idle ∧ after.rank = 1) ∨
      (event.rank = before.rank ∧ after.rank = before.rank + 1) := by
  -- one event leads out of every phase
  cases event <;> cases before <;> simp only [WorkEvent.next, reduceCtorEq] at h
  · cases h
    exact .inl ⟨rfl, rfl, rfl⟩
  · cases h
    exact .inr ⟨rfl, rfl⟩
  all_goals try split_ifs at h
  all_goals
    cases h
    exact .inr ⟨rfl, rfl⟩

/-- **Everything that happens to a work happens once for every post**, and what has not happened
yet since the last one happened once less. -/
theorem times_eq {log : List (W × WorkEvent n)} {work : W} {phase : WorkPhase n}
    (h : replay work log = some phase) (rank : ℕ) (hrank : rank < 7) :
    times rank work log + (if rank < phase.rank then 0 else 1) = times 0 work log := by
  induction log generalizing phase with
  | nil =>
      cases h
      simp [times, WorkPhase.rank, hrank]
  | cons entry log ih =>
      obtain ⟨other, event⟩ := entry
      simp only [replay] at h
      split_ifs at h with ho
      · subst ho
        obtain ⟨before, hbefore, hnext⟩ := Option.bind_eq_some_iff.mp h
        have ih := ih hbefore
        simp only [times, List.countP_cons, true_and, decide_eq_true_eq] at ih ⊢
        rcases WorkEvent.next_rank hnext with ⟨he, rfl, ha⟩ | ⟨he, ha⟩
        · simp only [WorkPhase.rank, hrank, if_true] at ih
          rw [he, ha]
          split_ifs <;> omega
        · rw [he, ha]
          have : before.rank ≠ 0 := by cases before <;> simp [WorkPhase.rank]
          split_ifs at ih ⊢ <;> omega
      · simpa [times, List.countP_cons, ho] using ih h

/-- What holds of the works at any time. -/
structure EveryWorkOnce (s : ThreadPool n W) : Prop where
  /-- Every log keeps to the life of a work, and the work is in the place it has come to. -/
  life : ∀ work, ∃ phase, replay work s.log = some phase ∧ s.In work phase.place
  /-- A work is in one place only. -/
  place : ∀ work, ∃! place, s.In work place
  /-- Everything happens once for every post. -/
  once : ∀ work phase, replay work s.log = some phase → ∀ rank < 7,
    times rank work s.log + (if rank < phase.rank then 0 else 1) = times 0 work s.log
  /-- `WorkerCallback` reads a whole number of pointers. -/
  read : s.pipe ≠ [] → s.batch = [] → ∃ next, s.readPipe = some next ∧ next.batch ≠ [] ∧
    8 * next.batch.length = min s.pipe.length (8192 * 8)
  /-- When every worker has exited, every work has been executed and only the marker is left. -/
  finished : (∀ worker, s.workers worker = .exited) →
    s.workList = (if s.phase = .stopping then [.stopSignal] else []) ∧
      ∀ work, times 3 work s.log = times 0 work s.log

/-- **What the places tell**: a work is in one place at a time, has had each event of its life as
often as it has begun the stage, and with all workers gone everything posted has been done. -/
theorem Located.everyWorkOnce {s : ThreadPool n W} {phase : W → WorkPhase n} (h : Located s phase)
    (he : Ending s) (hn : 0 < n) : EveryWorkOnce s where
  life work := ⟨phase work, h.replayed work, (h.in_iff work _).mpr rfl⟩
  place work := ⟨(phase work).place, (h.in_iff work _).mpr rfl,
    fun _ hp => ((h.in_iff work _).mp hp).symm⟩
  once _ _ hphase rank hrank := times_eq hphase rank hrank
  read hpipe hbatch := by
    obtain ⟨works, next, hread, rfl, hlen, -⟩ := h.readPipe hbatch
    refine ⟨next, hread, fun hnil => ?_, hlen⟩
    have := List.length_pos_iff.mpr hpipe
    rw [hnil, List.length_nil] at hlen
    omega
  finished hexited := by
    obtain ⟨hphase, hqueue⟩ := he.exited ⟨0, hn⟩ (hexited _)
    have hshape := he.shape
    rw [hqueue] at hshape
    refine ⟨hshape, fun work => ?_⟩
    -- nobody has the work any more
    have hnotQueue : (phase work).place ≠ .queue := fun hp => by
      have := (h.queue work).mpr hp
      rw [hqueue] at this
      cases this
    have hnotWorker : ∀ worker stage, (phase work).place ≠ .worker worker stage :=
      fun worker stage hp => by
        have := (h.worker worker work stage).mpr hp
        rw [hexited worker] at this
        cases this
    have hrank : 3 < (phase work).rank := by
      cases hp : phase work <;> simp_all [WorkPhase.place, WorkPhase.rank]
    have := times_eq (h.replayed work) 3 (by omega)
    rwa [if_pos hrank] at this

/-- **Exactly-once execution and completion.** For every number of workers, in every state that any
interleaving of the poster, the workers and `WorkerCallback` reaches. -/
theorem every_work_once (hn : 0 < n) {s : ThreadPool n W} (h : (poolSystem n W).Reachable s) :
    EveryWorkOnce s := by
  obtain ⟨⟨phase, hlocated⟩, hending⟩ := located_of_reachable h
  exact hlocated.everyWorkOnce hending hn

/-- Two workers: the first falls asleep and is woken for the first work, the second steals it, the
stop comes behind a second work, and both leave when that is done. -/
def stolenWork : List (PoolAction 2 Bool) :=
  [.examine 0 ∅, .postWork true ⟨1, 2, 3, 4⟩ {0}, .examine 1 ∅, .examine 0 ∅,
    .postWork false ⟨5, 6, 7, 8⟩ {0}, .stop ∅, .start 1, .examine 0 ∅, .finish 1, .write 1,
    .readPipe, .callback, .start 0, .finish 0, .write 0, .examine 1 ∅, .examine 0 ∅, .join]

/-- A worker that is woken for a work finds it stolen by the other, and the stop comes behind a
second work: when both have left, each work has been run once. -/
theorem every_work_once_stolenWork :
    ∃ s, (poolSystem 2 Bool).run (.init fun _ => ⟨0, 0, 0, 0⟩) stolenWork = some s ∧
      s.workList = [] ∧ times 3 true s.log = 1 ∧ EveryWorkOnce s := by
  have hend : ((poolSystem 2 Bool).run (.init fun _ => ⟨0, 0, 0, 0⟩) stolenWork).map
      (fun s => (s.workList, times 3 true s.log)) = some ([], 1) := by decide +kernel
  obtain ⟨s, hrun, hs⟩ := Option.map_eq_some_iff.mp hend
  obtain ⟨hlist, htimes⟩ := Prod.mk.inj hs
  exact ⟨s, hrun, hlist, htimes,
    every_work_once (by decide) (StepSystem.reachable_of_run ⟨_, rfl⟩ hrun)⟩

end Pixy.Pool
