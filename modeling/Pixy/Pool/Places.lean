import Pixy.Pool.ThreadPool

/-!
# Where a posted work is

The log gives every work a phase, and the phase a place. `Located` is the invariant: the places so
given are where the works really are, in the work list, with a worker, in the pipe or in the batch,
and nowhere twice. Every step moves one work from its place to the next and keeps the rest
(`Located.move`), except a read, which moves all it reads. `ThreadPool.steps` says once what a step
can do.

`Ending` is the rest of the invariant: the stop marker is the last item of the list, and a worker
that has exited found no work there.

`located_of_reachable` is the result; `Once.lean` says what it means for the works.
-/

namespace Pixy.Pool

open Pixy.Found

/-- What a worker does with the work it has. -/
inductive Stage
  /-- It has taken it off the list. -/
  | holding
  /-- It runs it. -/
  | running
  /-- It has run it. -/
  | writing
  deriving DecidableEq

/-- The places a work can be in. -/
inductive Place (n : ℕ)
  /-- Nowhere. -/
  | free
  /-- The work list. -/
  | queue
  /-- A worker. -/
  | worker (worker : Fin n) (stage : Stage)
  /-- The pipe. -/
  | pipe
  /-- The batch `WorkerCallback` has read. -/
  | batch
  deriving DecidableEq

variable {n : ℕ} {W : Type}

/-- The place that goes with a phase. -/
def WorkPhase.place : WorkPhase n → Place n
  | .idle => .free
  | .queued _ => .queue
  | .held worker _ => .worker worker .holding
  | .executing worker _ => .worker worker .running
  | .executed worker _ => .worker worker .writing
  | .piped _ => .pipe
  | .collected _ => .batch

/-- Where a work is tells its phase up to the fields it was posted with, which every phase but the
idle one carries. -/
theorem WorkPhase.of_place {phase : WorkPhase n} {place : Place n} (h : phase.place = place) :
    match place with
    | .free => phase = .idle
    | .queue => ∃ fields, phase = .queued fields
    | .worker worker .holding => ∃ fields, phase = .held worker fields
    | .worker worker .running => ∃ fields, phase = .executing worker fields
    | .worker worker .writing => ∃ fields, phase = .executed worker fields
    | .pipe => ∃ fields, phase = .piped fields
    | .batch => ∃ fields, phase = .collected fields := by
  subst h
  cases phase with
  | idle => rfl
  | queued fields => exact ⟨fields, rfl⟩
  | held worker fields => exact ⟨fields, rfl⟩
  | executing worker fields => exact ⟨fields, rfl⟩
  | executed worker fields => exact ⟨fields, rfl⟩
  | piped fields => exact ⟨fields, rfl⟩
  | collected fields => exact ⟨fields, rfl⟩

/-- The fields that go with a phase. -/
def WorkPhase.fields : WorkPhase n → Option Work
  | .idle => none
  | .queued fields | .held _ fields | .executing _ fields | .executed _ fields | .piped fields
  | .collected fields => some fields

/-- The work a worker has. -/
def Worker.load : Worker W → Option (W × Stage)
  | .holding work => some (work, .holding)
  | .running work => some (work, .running)
  | .writing work => some (work, .writing)
  | _ => none

/-- The work an item of the list belongs to. -/
def WorkListItem.work? : WorkListItem W → Option W
  | .work owner => some owner
  | .stopSignal => none

/-- The works in the list. -/
def ThreadPool.queue (self : ThreadPool n W) : List W := self.workList.filterMap WorkListItem.work?

/-- The bytes of some pointers, one after the other. -/
def encode (works : List W) : List (Byte W) := works.flatMap pointerBytes

/-! ## The pipe -/

section Pipe

/-- A pointer has eight bytes, which is why a full pipe and a full buffer hold whole pointers. -/
theorem length_pointerBytes (work : W) : (pointerBytes work).length = 8 := by
  simp [pointerBytes]

/-- What the pipe holds of a list of works are eight bytes for each. -/
theorem length_encode (works : List W) : (encode works).length = 8 * works.length := by
  induction works with
  | nil => rfl
  | cons work works ih =>
      simp only [encode, List.flatMap_cons, List.length_append, length_pointerBytes,
        List.length_cons]
      rw [encode] at ih
      omega

/-- The bytes of one list of works and of another behind it follow each other in the pipe. -/
theorem encode_append (works more : List W) :
    encode (works ++ more) = encode works ++ encode more :=
  List.flatMap_append

/-- The first eight bytes in the pipe are the pointer of the first work. -/
theorem take_encode_cons (work : W) (works : List W) :
    (encode (work :: works)).take 8 = pointerBytes work := by
  rw [encode, List.flatMap_cons]
  exact List.take_left' (length_pointerBytes work)

/-- Behind the first eight bytes in the pipe begins the rest of the works. -/
theorem drop_encode_cons (work : W) (works : List W) :
    (encode (work :: works)).drop 8 = encode works := by
  rw [encode, List.flatMap_cons]
  exact List.drop_left' (length_pointerBytes work)

/-- A multiple of eight bytes cut off the front of some pointers' bytes is as many whole pointers.
-/
theorem drop_encode (works : List W) (count : ℕ) :
    (encode works).drop (8 * count) = encode (works.drop count) := by
  induction count generalizing works with
  | zero => rfl
  | succ count ih =>
      rcases works with _ | ⟨work, works⟩
      · simp [encode]
      · rw [Nat.mul_succ, Nat.add_comm, ← List.drop_drop, drop_encode_cons, ih, List.drop_succ_cons]

variable [DecidableEq W]

/-- Eight bytes that were written as a pointer are read as that pointer. -/
theorem pointer_pointerBytes (work : W) : pointer (pointerBytes work) = some work := by
  have h : pointerBytes work = ⟨work, 0⟩ :: (pointerBytes work).tail := rfl
  rw [h]
  simp only [pointer]
  rw [← h]
  exact if_pos rfl

/-- **What is written is what is read**: the bytes of some pointers, read back in pieces of eight,
are the pointers again, from the first on. -/
theorem decode_encode {count : ℕ} (works : List W) (h : count ≤ works.length) :
    decode count (encode works) = some (works.take count) := by
  induction count generalizing works with
  | zero => simp [decode]
  | succ count ih =>
      rcases works with _ | ⟨work, works⟩
      · simp at h
      · simp only [decode, take_encode_cons, pointer_pointerBytes, drop_encode_cons,
          ih works (Nat.le_of_succ_le_succ h), Option.bind_eq_bind, Option.bind_some,
          List.take_succ_cons]

end Pipe

/-! ## The invariant -/

variable [DecidableEq W]

/-- **The works are where their phases say.** -/
structure Located (s : ThreadPool n W) (phase : W → WorkPhase n) : Prop where
  /-- The phases are those of the log. -/
  replayed : ∀ work, replay work s.log = some (phase work)
  /-- The fields of a posted work are those it was posted with. -/
  fields : ∀ work fields, (phase work).fields = some fields → s.works work = fields
  /-- No work is queued twice. -/
  queue_nodup : s.queue.Nodup
  /-- Those in the list. -/
  queue : ∀ work, work ∈ s.queue ↔ (phase work).place = .queue
  /-- Those with a worker. -/
  worker : ∀ worker work stage, (s.workers worker).load = some (work, stage) ↔
    (phase work).place = .worker worker stage
  /-- Those in the pipe. -/
  pipe : ∃ works : List W, s.pipe = encode works ∧ works.Nodup ∧
    ∀ work, work ∈ works ↔ (phase work).place = .pipe
  /-- No work is in the batch twice. -/
  batch_nodup : s.batch.Nodup
  /-- Those in the batch. -/
  batch : ∀ work, work ∈ s.batch ↔ (phase work).place = .batch

/-- Nothing happens except that sleepers wake. -/
structure Signalled (s next : ThreadPool n W) : Prop where
  /-- Only the workers are concerned. -/
  rest : next = { s with workers := next.workers }
  /-- Only the sleepers among them. -/
  wakes : ∀ worker, next.workers worker = s.workers worker ∨
    s.workers worker = .sleeping ∧ next.workers worker = .woken

namespace Signalled

variable {s next : ThreadPool n W} {woken : Finset (Fin n)}

omit [DecidableEq W] in
/-- That nothing happens at all is the case in which no sleeper wakes. -/
theorem refl (s : ThreadPool n W) : Signalled s s := ⟨rfl, fun _ => .inl rfl⟩

/-- A signal of the condition variable wakes one sleeper, or nobody where nobody sleeps, and changes
nothing else. -/
theorem of_signal (h : s.signal woken = some next) : Signalled s next := by
  unfold ThreadPool.signal at h
  split_ifs at h with hmay
  cases h
  refine ⟨rfl, fun worker => ?_⟩
  by_cases hw : worker ∈ woken
  · exact .inr ⟨hmay.1 worker hw, if_pos hw⟩
  · exact .inl (if_neg hw)

/-- A signal that is passed on wakes one sleeper at most, and none where the list is empty. -/
theorem of_relay (h : s.relay woken = some next) : Signalled s next := by
  unfold ThreadPool.relay at h
  split_ifs at h
  · exact of_signal h
  · cases h
    exact refl _

/-- Inserting an item puts it at the end of the list and then only wakes a sleeper. -/
theorem of_insert {item : WorkListItem W} (h : s.insertWorkListItem item woken = some next) :
    Signalled { s with workList := s.workList ++ [item] } next := by
  simp only [ThreadPool.insertWorkListItem] at h
  split_ifs at h
  · exact of_signal h
  · cases h
    exact refl _

omit [DecidableEq W] in
/-- A worker that does not sleep is left alone by a signal, whatever it is doing. -/
theorem awake (h : Signalled s next) {worker : Fin n} (hw : s.workers worker ≠ .sleeping) :
    next.workers worker = s.workers worker :=
  (h.wakes worker).resolve_right fun hs => hw hs.1

omit [DecidableEq W] in
/-- Nobody exits by a signal: who has exited afterwards had exited before. -/
theorem exited (h : Signalled s next) {worker : Fin n} (hw : next.workers worker = .exited) :
    s.workers worker = .exited := by
  rcases h.wakes worker with he | ⟨-, he⟩
  · rwa [he] at hw
  · rw [he] at hw
    cases hw

end Signalled

/-! ## What a step can do -/

/-- **The section of a worker's loop**, by the item it finds in front. -/
inductive ThreadPool.Examines (s : ThreadPool n W) (worker : Fin n) (woken : Finset (Fin n)) :
    ThreadPool n W → Prop
  | empty (hlist : s.workList = []) : Examines s worker woken (s.setWorker worker .sleeping)
  | marker {rest : List (WorkListItem W)} {signalled : ThreadPool n W}
      (hlist : s.workList = .stopSignal :: rest) (hrelay : s.relay woken = some signalled)
      (hs : Signalled s signalled) : Examines s worker woken (signalled.setWorker worker .exited)
  | work {work : W} {rest : List (WorkListItem W)} {signalled : ThreadPool n W}
      (hlist : s.workList = .work work :: rest)
      (hrelay : rest ≠ [] → ThreadPool.relay { s with workList := rest } woken = some signalled)
      (hs : Signalled { s with workList := rest } signalled) :
      Examines s worker woken
        ((signalled.setWorker worker (.holding work)).record work (.taken worker))

/-- **A step**, by what is done. -/
inductive ThreadPool.Steps (s : ThreadPool n W) : PoolAction n W → ThreadPool n W → Prop
  | postWork {work : W} {fields : Work} {woken : Finset (Fin n)} {next : ThreadPool n W}
      (hphase : s.phase = .posting) (hidle : replay work s.log = some .idle)
      (hpost : s.postWork work fields woken = some next) :
      Steps s (.postWork work fields woken) next
  | stop {woken : Finset (Fin n)} {next : ThreadPool n W} (hphase : s.phase = .posting)
      (hstop : s.stop woken = some next) : Steps s (.stop woken) next
  | join (hphase : s.phase = .stopping) (hexited : ∀ worker, s.workers worker = .exited) :
      Steps s .join s.join
  | readPipe {next : ThreadPool n W} (hpipe : s.pipe ≠ []) (hbatch : s.batch = [])
      (hread : s.readPipe = some next) : Steps s .readPipe next
  | callback {work : W} {rest : List W} (hbatch : s.batch = work :: rest) :
      Steps s .callback (ThreadPool.record { s with batch := rest } work
        (.calledBack (s.works work).callback (s.works work).data))
  | examine {worker : Fin n} {woken : Finset (Fin n)} {next : ThreadPool n W}
      (hw : s.workers worker = .atLock ∨ s.workers worker = .woken)
      (hexamines : s.Examines worker woken next) : Steps s (.examine worker woken) next
  | start {worker : Fin n} {work : W} (hw : s.workers worker = .holding work) :
      Steps s (.start worker) ((s.setWorker worker (.running work)).record work
        (.started worker (s.works work).function (s.works work).argument))
  | finish {worker : Fin n} {work : W} (hw : s.workers worker = .running work) :
      Steps s (.finish worker) ((s.setWorker worker (.writing work)).record work (.returned worker))
  | write {worker : Fin n} {work : W} (hw : s.workers worker = .writing work)
      (hroom : s.PipeHasRoom) : Steps s (.write worker) (ThreadPool.record
        { s.setWorker worker .atLock with pipe := s.pipe ++ pointerBytes work } work
        (.written worker))
  | wake {worker : Fin n} (hw : s.workers worker = .sleeping) :
      Steps s (.wake worker) (s.setWorker worker .woken)

section Inversion

variable {s next : ThreadPool n W}

/-- **What a worker finds** when it looks at the list: nothing, so that it falls asleep; the stop
marker, so that it exits; or a work, which it takes. -/
theorem ThreadPool.examines {worker : Fin n} {woken : Finset (Fin n)}
    (hexamine : s.examine worker woken = some next) : s.Examines worker woken next := by
  unfold ThreadPool.examine at hexamine
  split at hexamine
  · rename_i hlist
    cases hexamine
    exact .empty hlist
  · rename_i rest hlist
    obtain ⟨signalled, hrelay, rfl⟩ := Option.map_eq_some_iff.mp hexamine
    exact .marker hlist hrelay (.of_relay hrelay)
  · rename_i work rest hlist
    obtain ⟨signalled, hrelay, rfl⟩ := Option.map_eq_some_iff.mp hexamine
    split_ifs at hrelay with hrest
    · exact .work hlist (fun _ => hrelay) (.of_relay hrelay)
    · cases hrelay
      exact .work hlist (fun hne => absurd hne hrest) (.refl _)

/-- **Inversion.** A step that is made is one of these, made under the conditions that the
constructor names. -/
theorem ThreadPool.steps {action : PoolAction n W} (hstep : s.step action = some next) :
    s.Steps action next := by
  cases action with
  | postWork work fields woken =>
      simp only [ThreadPool.step] at hstep
      split_ifs at hstep with hen
      exact .postWork hen.1 hen.2 hstep
  | stop woken =>
      simp only [ThreadPool.step] at hstep
      split_ifs at hstep with hen
      exact .stop hen hstep
  | join =>
      simp only [ThreadPool.step] at hstep
      split_ifs at hstep with hen
      cases hstep
      exact .join hen.1 hen.2
  | readPipe =>
      simp only [ThreadPool.step] at hstep
      split_ifs at hstep with hen
      exact .readPipe hen.1 hen.2 hstep
  | callback =>
      rcases hbatch : s.batch with _ | ⟨work, rest⟩ <;>
        simp only [ThreadPool.step, hbatch, reduceCtorEq] at hstep
      cases hstep
      exact .callback hbatch
  | examine worker woken =>
      rcases hw : s.workers worker <;> simp only [ThreadPool.step, hw, reduceCtorEq] at hstep
      · exact .examine (.inl hw) (examines hstep)
      · exact .examine (.inr hw) (examines hstep)
  | start worker =>
      rcases hw : s.workers worker <;> simp only [ThreadPool.step, hw, reduceCtorEq] at hstep
      cases hstep
      exact .start hw
  | finish worker =>
      rcases hw : s.workers worker <;> simp only [ThreadPool.step, hw, reduceCtorEq] at hstep
      cases hstep
      exact .finish hw
  | write worker =>
      rcases hw : s.workers worker <;> simp only [ThreadPool.step, hw, reduceCtorEq] at hstep
      split_ifs at hstep with hroom
      cases hstep
      exact .write hw hroom
  | wake worker =>
      rcases hw : s.workers worker <;> simp only [ThreadPool.step, hw, reduceCtorEq] at hstep
      cases hstep
      exact .wake hw

end Inversion

namespace Located

variable {s next : ThreadPool n W} {phase : W → WorkPhase n} {work : W} {worker : Fin n}

/-- Waking sleepers, or an item that is no work's, moves no work. -/
theorem congr (h : Located s phase) (hlog : next.log = s.log) (hworks : next.works = s.works)
    (hqueue : next.queue = s.queue)
    (hworkers : ∀ worker, (next.workers worker).load = (s.workers worker).load)
    (hpipe : next.pipe = s.pipe) (hbatch : next.batch = s.batch) : Located next phase where
  replayed := hlog ▸ h.replayed
  fields := hworks ▸ h.fields
  queue_nodup := hqueue ▸ h.queue_nodup
  queue := hqueue ▸ h.queue
  worker worker := by rw [hworkers worker]; exact h.worker worker
  pipe := hpipe ▸ h.pipe
  batch_nodup := hbatch ▸ h.batch_nodup
  batch := hbatch ▸ h.batch

/-- One more event moves one work, the one it is about, and replaying the longer log gives every
other work the phase it had. -/
theorem replayed_record (h : Located s phase) (event : WorkEvent n) {after : WorkPhase n}
    (hnext : event.next (phase work) = some after) (hlog : next.log = (work, event) :: s.log)
    (other : W) : replay other next.log = some (Function.update phase work after other) := by
  rw [hlog]
  by_cases ho : other = work
  · subst ho
    simp [replay, h.replayed, hnext]
  · simp [replay, Ne.symm ho, h.replayed, ho]

/-! ## A place that is not concerned, and one that is -/

section Lists

variable {after : WorkPhase n} {place : Place n} {works : List W}

/-- A work that comes from elsewhere is appended to a list of works, which still holds those of its
place, each once. -/
theorem append_frame (hnodup : works.Nodup)
    (hmem : ∀ other, other ∈ works ↔ (phase other).place = place)
    (hbefore : (phase work).place ≠ place) (hafter : after.place = place) :
    (works ++ [work]).Nodup ∧
      ∀ other, other ∈ works ++ [work] ↔
      (Function.update phase work after other).place = place := by
  have hnot : work ∉ works := fun hin => hbefore ((hmem work).mp hin)
  refine ⟨List.nodup_append_comm.mp (List.nodup_cons.mpr ⟨hnot, hnodup⟩), ?_⟩
  intro other
  rw [List.mem_append, List.mem_singleton, hmem]
  by_cases ho : other = work <;> simp [ho, hafter]

/-- The first work of a list goes elsewhere, and the rest of the list still holds those of its
place, each once. -/
theorem tail_frame (hnodup : (work :: works).Nodup)
    (hmem : ∀ other, other ∈ work :: works ↔ (phase other).place = place)
    (hafter : after.place ≠ place) :
    works.Nodup ∧
      ∀ other, other ∈ works ↔ (Function.update phase work after other).place = place := by
  obtain ⟨hnot, hrest⟩ := List.nodup_cons.mp hnodup
  refine ⟨hrest, ?_⟩
  intro other
  by_cases ho : other = work
  · subst ho
    rw [Function.update_self]
    exact iff_of_false hnot hafter
  · rw [Function.update_of_ne ho, ← hmem]
    simp [ho]

end Lists

section Frames

variable (h : Located s phase) {after : WorkPhase n}
include h

/-- A work that neither was nor comes into the list leaves it as it is, for every other work too. -/
theorem queue_frame (hsame : next.queue = s.queue) (hbefore : (phase work).place ≠ .queue)
    (hafter : after.place ≠ .queue) (other : W) :
    other ∈ next.queue ↔ (Function.update phase work after other).place = .queue := by
  rw [hsame, h.queue]
  by_cases ho : other = work <;> simp [ho, hbefore, hafter]

/-- A work that neither was nor comes to a worker leaves all of them with what they had. -/
theorem worker_frame (hsame : next.workers = s.workers)
    (hbefore : ∀ worker stage, (phase work).place ≠ .worker worker stage)
    (hafter : ∀ worker stage, after.place ≠ .worker worker stage)
    (worker : Fin n) (other : W) (stage : Stage) :
    (next.workers worker).load = some (other, stage) ↔
      (Function.update phase work after other).place = .worker worker stage := by
  rw [hsame, h.worker]
  by_cases ho : other = work <;> simp [ho, hbefore, hafter]

/-- A work that neither was nor comes into the pipe leaves its contents as they are. -/
theorem pipe_frame (hsame : next.pipe = s.pipe) (hbefore : (phase work).place ≠ .pipe)
    (hafter : after.place ≠ .pipe) :
    ∃ works : List W, next.pipe = encode works ∧ works.Nodup ∧
      ∀ other, other ∈ works ↔ (Function.update phase work after other).place = .pipe := by
  obtain ⟨works, hpipe, hnodup, hmem⟩ := h.pipe
  refine ⟨works, hsame.trans hpipe, hnodup, fun other => ?_⟩
  rw [hmem]
  by_cases ho : other = work <;> simp [ho, hbefore, hafter]

/-- A work that neither was nor comes into the batch leaves it as it is. -/
theorem batch_frame (hsame : next.batch = s.batch) (hbefore : (phase work).place ≠ .batch)
    (hafter : after.place ≠ .batch) (other : W) :
    other ∈ next.batch ↔ (Function.update phase work after other).place = .batch := by
  rw [hsame, h.batch]
  by_cases ho : other = work <;> simp [ho, hbefore, hafter]

/-- The one worker concerned had at most this work, and has it now as the phase says. -/
theorem worker_set {state : Worker W} (hset : next.workers = Function.update s.workers worker state)
    (hbefore : ∀ other stage, (s.workers worker).load = some (other, stage) → other = work)
    (hleft : ∀ worker' stage, (phase work).place = .worker worker' stage → worker' = worker)
    (hload : ∀ other stage, state.load = some (other, stage) ↔
      other = work ∧ after.place = .worker worker stage)
    (hafter : ∀ worker' stage, after.place = .worker worker' stage → worker' = worker)
    (worker' : Fin n) (other : W) (stage : Stage) :
    (next.workers worker').load = some (other, stage) ↔
      (Function.update phase work after other).place = .worker worker' stage := by
  rw [hset]
  by_cases hw : worker' = worker
  · subst hw
    rw [Function.update_self, hload]
    by_cases ho : other = work
    · simp [ho]
    · have : ¬ (phase other).place = .worker worker' stage := fun hp =>
        ho (hbefore other stage ((h.worker worker' other stage).mpr hp))
      simp [ho, this]
  · rw [Function.update_of_ne hw, h.worker]
    by_cases ho : other = work
    · subst ho
      have hl : ¬ (phase other).place = .worker worker' stage :=
        fun hp => hw (hleft worker' stage hp)
      have ha : ¬ after.place = .worker worker' stage := fun hp => hw (hafter worker' stage hp)
      simp [hl, ha]
    · simp [ho]

/-- The fields that a work was posted with are kept as long as the work is under way, whatever
happens to it. -/
theorem fields_frame (hsame : next.works = s.works)
    (hkeep : ∀ fields, after.fields = some fields → (phase work).fields = some fields)
    (other : W) (fields : Work)
    (hf : (Function.update phase work after other).fields = some fields) :
    next.works other = fields := by
  rw [hsame]
  by_cases ho : other = work
  · subst ho
    rw [Function.update_self] at hf
    exact h.fields other fields (hkeep fields hf)
  · rw [Function.update_of_ne ho] at hf
    exact h.fields other fields hf

end Frames

/-! ## The steps -/

/-- A signal, or none, moves no work, as it changes nothing but who sleeps. -/
theorem of_signalled (h : Located s phase) (hs : Signalled s next) : Located next phase := by
  rw [hs.rest]
  refine h.congr rfl rfl rfl (fun worker => ?_) rfl rfl
  rcases hs.wakes worker with hw | ⟨hw, hw'⟩
  · exact congrArg Worker.load hw
  · simp [hw, hw', Worker.load]

/-- A work that is posted was nowhere and is in the list. -/
theorem postWork (h : Located s phase) {fields : Work} {woken : Finset (Fin n)}
    (hidle : phase work = .idle) (hstep : s.postWork work fields woken = some next) :
    Located next (Function.update phase work (.queued fields)) := by
  have hplace : (phase work).place = .free := by rw [hidle]; rfl
  suffices hposted : Located
      { ({ s with works := Function.update s.works work fields }.record work (.posted fields)) with
        workList := s.workList ++ [.work work] }
      (Function.update phase work (.queued fields)) from
    hposted.of_signalled (Signalled.of_insert hstep)
  have hqueue : ThreadPool.queue
      { ({ s with works := Function.update s.works work fields }.record work (.posted fields)) with
        workList := s.workList ++ [.work work] } = s.queue ++ [work] :=
    List.filterMap_append
  obtain ⟨hnodup, hmem⟩ := append_frame h.queue_nodup h.queue
    (show (phase work).place ≠ .queue by simp [hplace])
    (show (WorkPhase.queued (n := n) fields).place = .queue from rfl)
  refine ⟨h.replayed_record (.posted fields) (by simp [hidle, WorkEvent.next]) rfl,
    fun other f hf => ?_, hqueue ▸ hnodup, hqueue ▸ hmem,
    h.worker_frame rfl (by simp [hplace]) (by simp [WorkPhase.place]),
    h.pipe_frame rfl (by simp [hplace]) (by simp [WorkPhase.place]), h.batch_nodup,
    h.batch_frame rfl (by simp [hplace]) (by simp [WorkPhase.place])⟩
  by_cases ho : other = work
  · subst ho
    simpa [WorkPhase.fields, ThreadPool.record] using hf
  · rw [Function.update_of_ne ho] at hf
    simpa [ThreadPool.record, ho] using h.fields other f hf

/-- Stopping the pool puts a marker behind the works, which is no work, so every work stays where it
is. -/
theorem stop (h : Located s phase) {woken : Finset (Fin n)} (hstep : s.stop woken = some next) :
    Located next phase := by
  suffices hmarked : Located
      { s with phase := .stopping, workList := s.workList ++ [.stopSignal] } phase from
    hmarked.of_signalled (Signalled.of_insert hstep)
  refine h.congr rfl rfl ?_ (fun _ => rfl) rfl rfl
  rw [ThreadPool.queue, List.filterMap_append]
  exact List.append_nil _

/-- A worker that takes a work from the front of the list holds it, and the rest of the list stays.
-/
theorem take (h : Located s phase) {rest : List (WorkListItem W)}
    (hlist : s.workList = .work work :: rest) (hfree : (s.workers worker).load = none) :
    ∃ fields, Located ((({ s with workList := rest }).setWorker worker (.holding work)).record work
      (.taken worker)) (Function.update phase work (.held worker fields)) := by
  have hqueue : s.queue = work :: rest.filterMap WorkListItem.work? := by
    rw [ThreadPool.queue, hlist]
    rfl
  have hplace : (phase work).place = .queue := (h.queue work).mp (hqueue ▸ List.mem_cons_self)
  obtain ⟨fields, hphase⟩ : ∃ fields, phase work = .queued fields := WorkPhase.of_place hplace
  obtain ⟨hnodup, hmem⟩ := tail_frame (hqueue ▸ h.queue_nodup) (hqueue ▸ h.queue)
    (show (WorkPhase.held worker fields).place ≠ .queue by simp [WorkPhase.place])
  exact ⟨fields, h.replayed_record (.taken worker)
      (by simp [hphase, WorkEvent.next]) rfl,
    h.fields_frame rfl (by simp [hphase, WorkPhase.fields]), hnodup, hmem,
    h.worker_set rfl (fun _ _ hl => by simp [hfree] at hl) (by simp [hplace])
      (by simp [Worker.load, WorkPhase.place, eq_comm]) (by simp [WorkPhase.place, eq_comm]),
    h.pipe_frame rfl (by simp [hplace]) (by simp [WorkPhase.place]), h.batch_nodup,
    h.batch_frame rfl (by simp [hplace]) (by simp [WorkPhase.place])⟩

/-- The load of a worker tells in which place its work is, and at which stage it is there. -/
theorem place_of_load (h : Located s phase) (stage : Stage)
    (hload : (s.workers worker).load = some (work, stage)) :
    (phase work).place = .worker worker stage :=
  (h.worker worker work stage).mp hload

/-- A worker that calls the function of its work still has the work, which is now being executed. -/
theorem start (h : Located s phase) (hw : s.workers worker = .holding work) :
    ∃ fields, Located ((s.setWorker worker (.running work)).record work
      (.started worker (s.works work).function (s.works work).argument))
      (Function.update phase work (.executing worker fields)) := by
  have hplace := h.place_of_load .holding (by rw [hw]; rfl)
  obtain ⟨fields, hphase⟩ : ∃ fields, phase work = .held worker fields := WorkPhase.of_place hplace
  have hfields := h.fields work fields (by simp [hphase, WorkPhase.fields])
  exact ⟨fields, h.replayed_record
      (.started worker (s.works work).function (s.works work).argument)
      (by simp [hphase, WorkEvent.next, hfields]) rfl,
    h.fields_frame rfl (by simp [hphase, WorkPhase.fields]), h.queue_nodup,
    h.queue_frame rfl (by simp [hplace]) (by simp [WorkPhase.place]),
    h.worker_set rfl (fun _ _ hl => by simp_all [Worker.load]) (by simp [hplace, eq_comm])
      (by simp [Worker.load, WorkPhase.place, eq_comm]) (by simp [WorkPhase.place, eq_comm]),
    h.pipe_frame rfl (by simp [hplace]) (by simp [WorkPhase.place]), h.batch_nodup,
    h.batch_frame rfl (by simp [hplace]) (by simp [WorkPhase.place])⟩

/-- A worker whose work's function returns still has the work, which is now to be written to the
pipe. -/
theorem finish (h : Located s phase) (hw : s.workers worker = .running work) :
    ∃ fields, Located ((s.setWorker worker (.writing work)).record work (.returned worker))
      (Function.update phase work (.executed worker fields)) := by
  have hplace := h.place_of_load .running (by rw [hw]; rfl)
  obtain ⟨fields, hphase⟩ : ∃ fields, phase work = .executing worker fields :=
    WorkPhase.of_place hplace
  exact ⟨fields, h.replayed_record (.returned worker)
      (by simp [hphase, WorkEvent.next]) rfl,
    h.fields_frame rfl (by simp [hphase, WorkPhase.fields]), h.queue_nodup,
    h.queue_frame rfl (by simp [hplace]) (by simp [WorkPhase.place]),
    h.worker_set rfl (fun _ _ hl => by simp_all [Worker.load]) (by simp [hplace, eq_comm])
      (by simp [Worker.load, WorkPhase.place, eq_comm]) (by simp [WorkPhase.place, eq_comm]),
    h.pipe_frame rfl (by simp [hplace]) (by simp [WorkPhase.place]), h.batch_nodup,
    h.batch_frame rfl (by simp [hplace]) (by simp [WorkPhase.place])⟩

/-- A worker that writes the pointer of its work has the work no more, which is now in the pipe. -/
theorem write (h : Located s phase) (hw : s.workers worker = .writing work) :
    ∃ fields, Located
      ({ s.setWorker worker .atLock with pipe := s.pipe ++ pointerBytes work }.record work
        (.written worker)) (Function.update phase work (.piped fields)) := by
  have hplace := h.place_of_load .writing (by rw [hw]; rfl)
  obtain ⟨fields, hphase⟩ : ∃ fields, phase work = .executed worker fields :=
    WorkPhase.of_place hplace
  obtain ⟨works, hpipe, hnodup, hmem⟩ := h.pipe
  obtain ⟨hnodup', hmem'⟩ := append_frame hnodup hmem
    (show (phase work).place ≠ .pipe by simp [hplace])
    (show (WorkPhase.piped (n := n) fields).place = .pipe from rfl)
  refine ⟨fields, h.replayed_record (.written worker)
      (by simp [hphase, WorkEvent.next]) rfl,
    h.fields_frame rfl (by simp [hphase, WorkPhase.fields]), h.queue_nodup,
    h.queue_frame rfl (by simp [hplace]) (by simp [WorkPhase.place]),
    h.worker_set rfl (fun _ _ hl => by simp_all [Worker.load]) (by simp [hplace, eq_comm])
      (by simp [Worker.load, WorkPhase.place]) (by simp [WorkPhase.place]),
    ⟨works ++ [work], ?_, hnodup', hmem'⟩, h.batch_nodup,
    h.batch_frame rfl (by simp [hplace]) (by simp [WorkPhase.place])⟩
  rw [encode_append, ← hpipe]
  simp [ThreadPool.record, encode]

/-- A callback ends the first work of the batch, which is idle from then on and may be posted again.
-/
theorem callback (h : Located s phase) {rest : List W} (hbatch : s.batch = work :: rest) :
    Located ({ s with batch := rest }.record work
      (.calledBack (s.works work).callback (s.works work).data))
      (Function.update phase work .idle) := by
  have hplace : (phase work).place = .batch := (h.batch work).mp (hbatch ▸ List.mem_cons_self)
  obtain ⟨fields, hphase⟩ : ∃ fields, phase work = .collected fields := WorkPhase.of_place hplace
  have hfields := h.fields work fields (by simp [hphase, WorkPhase.fields])
  obtain ⟨hnodup, hmem⟩ := tail_frame (hbatch ▸ h.batch_nodup) (hbatch ▸ h.batch)
    (show (WorkPhase.idle (n := n)).place ≠ .batch by simp [WorkPhase.place])
  exact ⟨h.replayed_record
      (.calledBack (s.works work).callback (s.works work).data)
      (by simp [hphase, WorkEvent.next, hfields]) rfl,
    h.fields_frame rfl (by simp [WorkPhase.fields]), h.queue_nodup,
    h.queue_frame rfl (by simp [hplace]) (by simp [WorkPhase.place]),
    h.worker_frame rfl (by simp [hplace]) (by simp [WorkPhase.place]),
    h.pipe_frame rfl (by simp [hplace]) (by simp [WorkPhase.place]), hnodup, hmem⟩

/-- Reading distinct works moves each of them into the batch, once, and no other one. -/
theorem replay_read {works : List W} {log : List (W × WorkEvent n)} (hnodup : works.Nodup)
    (work : W) :
    replay work (works.map (·, .read) ++ log) =
      if work ∈ works then (replay work log).bind WorkEvent.read.next else replay work log := by
  induction works with
  | nil => rfl
  | cons other works ih =>
      obtain ⟨hnot, hnodup⟩ := List.nodup_cons.mp hnodup
      by_cases ho : other = work
      · subst ho
        simp [replay, ih hnodup, hnot]
      · simp [replay, ih hnodup, ho, Ne.symm ho]

/-- The phase a read leads to. -/
def readPhase (phase : WorkPhase n) : WorkPhase n :=
  match phase with
  | .piped fields => .collected fields
  | other => other

/-- **The read.** What is in the pipe is a number of whole pointers, and as many are read as the
buffer holds. -/
theorem readPipe (h : Located s phase) (hbatch : s.batch = []) :
    ∃ works next, s.readPipe = some next ∧ next.batch = works ∧
      8 * works.length = min s.pipe.length (8192 * 8) ∧ next.workList = s.workList ∧
      next.workers = s.workers ∧ next.phase = s.phase ∧
      Located next fun work => if work ∈ works then readPhase (phase work) else phase work := by
  obtain ⟨works, hpipe, hnodup, hmem⟩ := h.pipe
  have hlen : s.pipe.length = 8 * works.length := hpipe ▸ length_encode works
  have hbytes : min s.pipe.length (8192 * 8) = 8 * min works.length 8192 := by omega
  have hcount : min s.pipe.length (8192 * 8) / 8 = min works.length 8192 := by omega
  have hdecode := decode_encode works (Nat.min_le_left works.length 8192)
  have hsplit := List.take_append_drop (min works.length 8192) works
  generalize htake : works.take (min works.length 8192) = taken at hdecode hsplit
  generalize hdrop : works.drop (min works.length 8192) = left at hsplit
  have hparts : (taken ++ left).Nodup := hsplit ▸ hnodup
  have hmem' : ∀ work, work ∈ taken ∨ work ∈ left ↔ (phase work).place = .pipe := fun work => by
    rw [← List.mem_append, hsplit, hmem]
  have hplaced : ∀ work ∈ taken, ∃ fields, phase work = .piped fields := fun work hin =>
    WorkPhase.of_place ((hmem' work).mp (.inl hin))
  -- for a place other than the two concerned, nothing changes
  have hframe : ∀ place, place ≠ .pipe → place ≠ .batch → ∀ work,
      (if work ∈ taken then readPhase (phase work) else phase work).place = place ↔
        (phase work).place = place := fun place hne hne' work => by
    split_ifs with hin
    · obtain ⟨fields, hp⟩ := hplaced work hin
      simp [hp, readPhase, WorkPhase.place, Ne.symm hne, Ne.symm hne']
    · rfl
  refine ⟨taken,
    { s with
      pipe := s.pipe.drop (min s.pipe.length (8192 * 8))
      batch := taken
      log := taken.map (·, .read) ++ s.log }, ?_, rfl, ?_, rfl, rfl, rfl, ?_⟩
  · rw [ThreadPool.readPipe, hcount, hpipe, hdecode]
    rfl
  · rw [hbytes, ← htake, List.length_take]
    omega
  · refine ⟨fun work => ?_, fun work fields hf => ?_, h.queue_nodup, fun work => ?_,
      fun worker work stage => ?_, ⟨left, ?_, (List.nodup_append.mp hparts).2.1, fun work => ?_⟩,
      (List.nodup_append.mp hparts).1, fun work => ?_⟩
    · rw [replay_read (List.nodup_append.mp hparts).1, h.replayed]
      split_ifs with hin
      · obtain ⟨fields, hp⟩ := hplaced work hin
        simp [hp, readPhase, WorkEvent.next]
      · rfl
    · refine h.fields work fields ?_
      split_ifs at hf with hin
      · obtain ⟨fields', hp⟩ := hplaced work hin
        simpa [hp, readPhase, WorkPhase.fields] using hf
      · exact hf
    · exact (h.queue work).trans (hframe _ (by simp) (by simp) work).symm
    · exact (h.worker worker work stage).trans (hframe _ (by simp) (by simp) work).symm
    · show s.pipe.drop (min s.pipe.length (8192 * 8)) = encode left
      rw [hbytes, hpipe, drop_encode, hdrop]
    · by_cases hin : work ∈ taken
      · have hnot : work ∉ left := List.disjoint_of_nodup_append hparts hin
        obtain ⟨fields, hp⟩ := hplaced work hin
        simp [hin, hnot, hp, readPhase, WorkPhase.place]
      · simpa [hin] using hmem' work
    · have hold := h.batch work
      rw [hbatch] at hold
      by_cases hin : work ∈ taken
      · obtain ⟨fields, hp⟩ := hplaced work hin
        simp [hin, hp, readPhase, WorkPhase.place]
      · simpa [hin] using hold

/-- A worker without a work that goes to sleep, wakes or exits. -/
theorem rest (h : Located s phase) (hfree : (s.workers worker).load = none) {state : Worker W}
    (hstate : state.load = none) : Located (s.setWorker worker state) phase := by
  refine h.congr rfl rfl rfl (fun other => ?_) rfl rfl
  by_cases ho : other = worker
  · simp [ThreadPool.setWorker, ho, hfree, hstate]
  · simp [ThreadPool.setWorker, ho]

/-- A worker's mutex-protected section leaves every work in a place: it sleeps on an empty list,
exits on the marker, or takes the work in front. -/
theorem examine (h : Located s phase) {woken : Finset (Fin n)}
    (hfree : s.workers worker = .atLock ∨ s.workers worker = .woken)
    (hexamines : s.Examines worker woken next) : ∃ phase, Located next phase := by
  have hload : (s.workers worker).load = none := by
    rcases hfree with hw | hw <;> rw [hw] <;> rfl
  have hawake : s.workers worker ≠ .sleeping := by
    rcases hfree with hw | hw <;> simp [hw]
  cases hexamines with
  | empty hlist => exact ⟨phase, h.rest hload rfl⟩
  | marker hlist hrelay hs =>
      exact ⟨phase, (h.of_signalled hs).rest (by rwa [hs.awake hawake]) rfl⟩
  | work hlist hrelay hs =>
      -- whether the signal comes before or after the rest of the section makes no difference
      obtain ⟨fields, htaken⟩ := h.take hlist hload
      refine ⟨_, htaken.of_signalled ⟨?_, fun other => ?_⟩⟩
      · rw [hs.rest]
        rfl
      · by_cases ho : other = worker
        · left
          simp [ThreadPool.record, ThreadPool.setWorker, ho]
        · simpa [ThreadPool.record, ThreadPool.setWorker, ho] using hs.wakes other

end Located

/-! ## How it ends -/

/-- **The stop marker.** It is the last item of the list from the call of `ThreadPool_Stop` to its
return, and a worker that has exited found it in front. -/
structure Ending (s : ThreadPool n W) : Prop where
  /-- Behind the works there is the marker or nothing. -/
  shape : s.workList = s.queue.map .work ++ if s.phase = .stopping then [.stopSignal] else []
  /-- Who has exited left no work. -/
  exited : ∀ worker, s.workers worker = .exited → s.phase ≠ .posting ∧ s.queue = []

namespace Ending

variable {s next : ThreadPool n W} {work : W} {worker : Fin n} {woken : Finset (Fin n)}

omit [DecidableEq W] in
/-- The works of the list, where the list is known, are its items without the marker. -/
theorem queue_eq {list : List (WorkListItem W)} (h : s.workList = list) :
    s.queue = list.filterMap WorkListItem.work? := by
  rw [ThreadPool.queue, h]

omit [DecidableEq W] in
/-- A step that concerns neither the list nor the phase, and by which nobody exits, keeps what is
said about the end. -/
theorem congr (h : Ending s) (hlist : next.workList = s.workList) (hphase : next.phase = s.phase)
    (hexited : ∀ worker, next.workers worker = .exited → s.workers worker = .exited) :
    Ending next where
  shape := by rw [queue_eq hlist, hlist, hphase]; exact h.shape
  exited worker hw := by rw [queue_eq hlist, hphase]; exact h.exited worker (hexited worker hw)

omit [DecidableEq W] in
/-- Waking sleepers touches neither the list nor who has exited, so what is said about the end stays
true. -/
theorem of_signalled (h : Ending s) (hs : Signalled s next) : Ending next :=
  h.congr (by rw [hs.rest]) (by rw [hs.rest]) fun _ => hs.exited

omit [DecidableEq W] in
/-- A worker that neither exits nor touches the list changes nothing about the end. -/
theorem setWorker (h : Ending s) (worker : Fin n) (state : Worker W) (hstate : state ≠ .exited) :
    Ending (s.setWorker worker state) := by
  refine h.congr rfl rfl fun other hw => ?_
  by_cases ho : other = worker
  · exact absurd (by simpa [ThreadPool.setWorker, ho] using hw) hstate
  · simpa [ThreadPool.setWorker, ho] using hw

/-- A post comes before the stop, so that there is no marker which it would have to stay in front
of. -/
theorem postWork (h : Ending s) {fields : Work} (hphase : s.phase = .posting)
    (hstep : s.postWork work fields woken = some next) : Ending next := by
  refine of_signalled ⟨?_, fun worker hw => ?_⟩ (Signalled.of_insert hstep)
  · have hshape := h.shape
    have hp : (ThreadPool.record { s with works := Function.update s.works work fields } work
      (.posted fields)).phase = .posting := hphase
    rw [hphase] at hshape
    simp only [ThreadPool.queue, List.filterMap_append, List.map_append, hp] at hshape ⊢
    simp only [reduceCtorEq, if_false, List.append_nil] at hshape ⊢
    show s.workList ++ _ = List.map _ (List.filterMap _ s.workList) ++ _
    rw [← hshape]
    rfl
  · exact absurd hphase (h.exited worker hw).1

/-- The stop puts the marker behind all works that were posted, and no worker has exited before. -/
theorem stop (h : Ending s) (hphase : s.phase = .posting) (hstep : s.stop woken = some next) :
    Ending next := by
  refine of_signalled ⟨?_, fun worker hw => ?_⟩ (Signalled.of_insert hstep)
  · have hshape := h.shape
    rw [hphase] at hshape
    simp only [reduceCtorEq, if_false, List.append_nil, ThreadPool.queue] at hshape
    simp only [ThreadPool.queue, List.filterMap_append, List.map_append, if_true, ← hshape,
      List.append_assoc]
    rfl
  · exact absurd hphase (h.exited worker hw).1

/-- The joins of all workers take the marker off the list, and the works that are there stay. -/
theorem join_workList (h : Ending s) (hphase : s.phase = .stopping) :
    s.join.workList = s.queue.map .work ∧ s.join.queue = s.queue := by
  have hshape := h.shape
  rw [hphase, if_pos rfl] at hshape
  have hnot : WorkListItem.stopSignal ∉ s.queue.map WorkListItem.work := by simp
  have hlist : s.workList.erase .stopSignal = s.queue.map WorkListItem.work := by
    rw [hshape, List.erase_append_right _ hnot]
    simp
  refine ⟨hlist, ?_⟩
  show (s.workList.erase .stopSignal).filterMap WorkListItem.work? = s.queue
  rw [hlist, List.filterMap_map]
  exact List.filterMap_some

/-- When `ThreadPool_Stop` returns, the marker is taken off and nobody is left to find it. -/
theorem join (h : Ending s) (hphase : s.phase = .stopping) : Ending s.join := by
  obtain ⟨hlist, hqueue⟩ := h.join_workList hphase
  refine ⟨?_, fun worker hw => ⟨by simp [ThreadPool.join], hqueue ▸ (h.exited worker hw).2⟩⟩
  rw [hqueue, hlist]
  simp [ThreadPool.join]

omit [DecidableEq W] in
/-- The marker in front is the only item of the list, since works are posted before the pool is
stopped, and the workers take them from the front. -/
theorem only_marker (h : Ending s) {rest : List (WorkListItem W)}
    (hlist : s.workList = .stopSignal :: rest) :
    s.phase = .stopping ∧ s.queue = [] ∧ s.workList = [.stopSignal] := by
  have hshape := h.shape
  rcases hq : s.queue with _ | ⟨work, queue⟩
  · by_cases hphase : s.phase = .stopping
    · exact ⟨hphase, rfl, by rw [hshape, hq, if_pos hphase]; rfl⟩
    · rw [hq, if_neg hphase, hlist] at hshape
      cases hshape
  · rw [hq, hlist] at hshape
    cases hshape

/-- A worker takes a work from in front of the marker, and exits only where the marker is in
front. -/
theorem examine (h : Ending s) (hexamines : s.Examines worker woken next) : Ending next := by
  cases hexamines with
  | empty hlist => exact h.setWorker worker .sleeping nofun
  | marker hlist hrelay hs =>
      obtain ⟨hphase, hqueue, -⟩ := h.only_marker hlist
      refine ⟨(h.of_signalled hs).shape, fun other _ => ⟨?_, ?_⟩⟩
      · rw [hs.rest]
        show s.phase ≠ .posting
        rw [hphase]
        nofun
      · rw [hs.rest]
        exact hqueue
  | @work work rest signalled hlist hrelay hs =>
      have hqueue : s.queue = work :: rest.filterMap WorkListItem.work? := queue_eq hlist
      -- a work was there, so nobody has exited
      have hnone : ∀ other, s.workers other ≠ .exited := fun other hw => by
        have hempty := (h.exited other hw).2
        rw [hqueue] at hempty
        cases hempty
      have hrest : Ending { s with workList := rest } := by
        refine ⟨?_, fun other hw => absurd hw (hnone other)⟩
        have hshape := h.shape
        rw [hqueue, hlist, List.map_cons, List.cons_append] at hshape
        exact (List.cons.inj hshape).2
      exact ((hrest.of_signalled hs).setWorker worker (.holding work) nofun).congr rfl rfl
        fun _ => id

end Ending

/-- **Every step keeps both invariants**, one case for each of the pool's steps, by the lemma about
it. -/
theorem ThreadPool.step_spec {s next : ThreadPool n W} {action : PoolAction n W}
    (h : ∃ phase, Located s phase) (he : Ending s) (hstep : s.step action = some next) :
    (∃ phase, Located next phase) ∧ Ending next := by
  obtain ⟨phase, h⟩ := h
  cases ThreadPool.steps hstep with
  | @postWork work fields woken next hphase hidle hpost =>
      have hidle : phase work = .idle := Option.some.inj ((h.replayed work).symm.trans hidle)
      exact ⟨⟨_, h.postWork hidle hpost⟩, he.postWork hphase hpost⟩
  | stop hphase hstop => exact ⟨⟨phase, h.stop hstop⟩, he.stop hphase hstop⟩
  | join hphase _ =>
      exact ⟨⟨phase, h.congr rfl rfl (he.join_workList hphase).2 (fun _ => rfl) rfl rfl⟩,
        he.join hphase⟩
  | readPipe _ hbatch hread =>
      obtain ⟨works, next', hread', -, -, hlist, hworkers, hphase, hlocated⟩ := h.readPipe hbatch
      cases hread'.symm.trans hread
      exact ⟨⟨_, hlocated⟩, he.congr hlist hphase fun _ hw => hworkers ▸ hw⟩
  | callback hbatch => exact ⟨⟨_, h.callback hbatch⟩, he.congr rfl rfl fun _ => id⟩
  | examine hw hexamines => exact ⟨h.examine hw hexamines, he.examine hexamines⟩
  | @start worker work hw =>
      obtain ⟨fields, hlocated⟩ := h.start hw
      exact ⟨⟨_, hlocated⟩, (he.setWorker worker (.running work) nofun).congr rfl rfl fun _ => id⟩
  | @finish worker work hw =>
      obtain ⟨fields, hlocated⟩ := h.finish hw
      exact ⟨⟨_, hlocated⟩, (he.setWorker worker (.writing work) nofun).congr rfl rfl fun _ => id⟩
  | @write worker work hw hroom =>
      obtain ⟨fields, hlocated⟩ := h.write hw
      exact ⟨⟨_, hlocated⟩, (he.setWorker worker .atLock nofun).congr rfl rfl fun _ => id⟩
  | @wake worker hw =>
      exact ⟨⟨phase, h.rest (by rw [hw]; rfl) rfl⟩, he.setWorker worker .woken nofun⟩

/-- In every reachable state each work is in the place its history leads to, and the stop marker
where it should be. -/
theorem located_of_reachable {s : ThreadPool n W} (h : (poolSystem n W).Reachable s) :
    (∃ phase, Located s phase) ∧ Ending s := by
  refine StepSystem.ReachableWhen.induct (I := fun s => (∃ phase, Located s phase) ∧ Ending s)
    ?_ ?_ h
  · rintro _ ⟨works, rfl⟩
    refine ⟨⟨fun _ => .idle, ?_⟩, ?_⟩
    · exact ⟨fun _ => rfl, nofun, List.nodup_nil,
        fun _ => by simp [ThreadPool.init, ThreadPool.queue, WorkPhase.place],
        fun _ _ _ => by simp [ThreadPool.init, Worker.load, WorkPhase.place],
        ⟨[], rfl, List.nodup_nil, by simp [WorkPhase.place]⟩, List.nodup_nil,
        fun _ => by simp [ThreadPool.init, WorkPhase.place]⟩
    · exact ⟨rfl, nofun⟩
  · rintro s action next - ⟨hlocated, hending⟩ - hstep
    exact ThreadPool.step_spec hlocated hending hstep

end Pixy.Pool
