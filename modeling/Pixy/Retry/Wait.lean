import Pixy.Loop.Context
import Pixy.Loop.TimerHeap
import Pixy.Mem.MemoryPool

/-!
# Waiting, with the error number

`WaitForFD` up to the suspension once more, through the layers that allocate: the poller with its
vector and its pool of events, the timer with its heap. Each layer may write `errno` or leave it,
and each function here returns what it has become.

`realloc` and `malloc` set it when they fail. `posix_memalign` does not: it returns the error, and
`MemoryPool_IncreaseChunks` drops what it returns.

* `setWatch_spec` and `setTimeout_spec`: when they fail, and what `errno` is then;
* `waitForFD_spec`: the same of the whole;
* `waitForFD_refines`: but for `errno` it is the `waitForFD` of the runtime.
-/

namespace Pixy.Retry

open Pixy.Found Pixy.Store Pixy.Mem Pixy.Poll Pixy.Loop

/-- Source: `errno.h`. -/
def eagain : ℤ := 11

/-- On Linux the two are one. Source: `errno.h`. -/
def ewouldblock : ℤ := 11

@[inherit_doc eagain] def enomem : ℤ := 12

/-- What the allocations of a wait come to. -/
structure Memory where
  /-- Whether `realloc` would succeed for the vector of events. -/
  events : Bool
  /-- What `posix_memalign` returns for the pool of events. -/
  chunk : Option (ℕ × Bytes)
  /-- Whether `realloc` would succeed for the vector of segments. -/
  segments : Bool
  /-- What `malloc` returns for a segment. -/
  segment : Option (ℕ → NodeId)

/-- The globals that a wait uses; the pool belongs to the poller.
Source: `IO.c`, `IOPoller` and `Timer`. -/
structure Globals where
  /-- `IOPoller`. -/
  poller : IOPoller Callback
  /-- Its `eventMemoryPool`. -/
  eventMemoryPool : MemoryPool
  /-- `Timer`. -/
  timer : HeapTimer Callback

/-! ## The poller -/

/-- Source: `MemoryPool.c`, `MemoryPool_AllocateBlock`. -/
def allocateBlock (pool : MemoryPool) (chunk : Option (ℕ × Bytes)) (errno : ℤ) :
    Option (MemoryPool × Option ℕ × ℤ) :=
  (pool.allocateBlock chunk).map fun (pool, block) => (pool, block, errno)

/-- Source: `IOPoller.c`, `IOPoller_SetWatch`. -/
def setWatch (g : Globals) (watch : WatchId) (fd : FD) (condition : IOCondition) (data : ℕ)
    (callback : Callback) (memory : Memory) (errno : ℤ) : Option (Globals × Bool × ℤ) :=
  match g.poller.growEvents fd memory.events with
  | (poller, false) => some ({ g with poller := poller }, false, enomem)
  | (poller, true) => do
    match ← poller.load fd with
    | some event =>
      let poller ← poller.addWatch watch fd condition data callback event
      return ({ g with poller := poller }, true, errno)
    | none =>
      let (pool, block, errno) ← allocateBlock g.eventMemoryPool memory.chunk errno
      match block with
      | none => return ({ g with poller := poller, eventMemoryPool := pool }, false, errno)
      | some event =>
        let poller ← poller.newEvent fd event
        let poller ← poller.addWatch watch fd condition data callback event
        return ({ g with poller := poller, eventMemoryPool := pool }, true, errno)

/-- The descriptor has no event, every chunk of the pool is full, and there is no memory for
another. -/
def Globals.LacksEvent (g : Globals) (fd : FD) (memory : Memory) : Prop :=
  (g.poller.growEvents fd memory.events).2 = true ∧
    (g.poller.growEvents fd memory.events).1.load fd = some none ∧
    g.eventMemoryPool.links.IsEmpty .usableChunkListHead ∧ memory.chunk = none

section Poller

variable {g g' : Globals} {watch : WatchId} {fd : FD} {condition : IOCondition} {data : ℕ}
  {callback : Callback} {memory : Memory} {errno errno' : ℤ} {ok : Bool}

/-- From a chunk that is not full a block is taken. -/
theorem taken_ne_none {pool pool' : MemoryPool} {block : Option ℕ}
    (h : (match pool.links.prev .usableChunkListHead with
      | .listItem chunk =>
        if chunk ∈ pool.chunks then some ((pool.takeSlot chunk).1, some (pool.takeSlot chunk).2)
        else none
      | _ => none) = some (pool', block)) : block ≠ none := by
  split at h
  · split_ifs at h
    cases h
    simp
  · cases h

/-- **When the pool has no block**: every chunk is full, and there is no memory for another. `errno`
is left alone. -/
theorem allocateBlock_spec {pool pool' : MemoryPool} {chunk : Option (ℕ × Bytes)} {block : Option ℕ}
    (h : allocateBlock pool chunk errno = some (pool', block, errno')) :
    errno' = errno ∧
      (block = none ↔ pool.links.IsEmpty .usableChunkListHead ∧ chunk = none) := by
  obtain ⟨⟨pool₁, block₁⟩, hallocate, heq⟩ := Option.map_eq_some_iff.mp h
  cases heq
  refine ⟨rfl, ?_⟩
  unfold MemoryPool.allocateBlock at hallocate
  obtain ⟨⟨grown, enough⟩, hgrown, hallocate⟩ := Option.bind_eq_some_iff.mp hallocate
  by_cases hempty : pool.links.IsEmpty .usableChunkListHead
  · rw [if_pos hempty] at hgrown
    rcases chunk with _ | ⟨chunk, contents⟩
    · cases hgrown
      cases hallocate
      simp [hempty]
    · obtain ⟨bytes, -, hgrown⟩ := Option.bind_eq_some_iff.mp hgrown
      cases hgrown
      simp [taken_ne_none hallocate]
  · rw [if_neg hempty] at hgrown
    cases hgrown
    simp [taken_ne_none hallocate, hempty]

/-- **When a watch cannot be set**: for want of an event, and `errno` is left alone, or because the
vector could not grow. -/
theorem setWatch_spec
    (h : setWatch g watch fd condition data callback memory errno = some (g', ok, errno')) :
    g'.timer = g.timer ∧
      ((ok = true ∧ ¬g.LacksEvent fd memory ∧ errno' = errno) ∨
        (ok = false ∧ g.LacksEvent fd memory ∧ errno' = errno) ∨
        (ok = false ∧ ¬g.LacksEvent fd memory ∧ errno' = enomem)) := by
  unfold setWatch at h
  rcases hgrow : g.poller.growEvents fd memory.events with ⟨poller, _ | _⟩
  · rw [hgrow] at h
    cases h
    refine ⟨rfl, .inr (.inr ⟨rfl, fun hlacks => ?_, rfl⟩)⟩
    have hgrown := hlacks.1
    rw [hgrow] at hgrown
    cases hgrown
  · rw [hgrow] at h
    obtain ⟨element, hload, h⟩ := Option.bind_eq_some_iff.mp h
    rcases element with _ | event
    · obtain ⟨⟨pool, block, errno₁⟩, hallocate, h⟩ := Option.bind_eq_some_iff.mp h
      obtain ⟨rfl, hnone⟩ := allocateBlock_spec hallocate
      rcases block with _ | event
      · cases h
        obtain ⟨hempty, hchunk⟩ := hnone.mp rfl
        have hlacks : g.LacksEvent fd memory := by
          refine ⟨?_, ?_, hempty, hchunk⟩
          · rw [hgrow]
          · rw [hgrow]
            exact hload
        exact ⟨rfl, .inr (.inl ⟨rfl, hlacks, rfl⟩)⟩
      · obtain ⟨fresh, -, h⟩ := Option.bind_eq_some_iff.mp h
        obtain ⟨added, -, h⟩ := Option.bind_eq_some_iff.mp h
        cases h
        refine ⟨rfl, .inl ⟨rfl, fun hlacks => ?_, rfl⟩⟩
        have hblock := hnone.mpr ⟨hlacks.2.2.1, hlacks.2.2.2⟩
        cases hblock
    · obtain ⟨added, -, h⟩ := Option.bind_eq_some_iff.mp h
      cases h
      refine ⟨rfl, .inl ⟨rfl, fun hlacks => ?_, rfl⟩⟩
      have hno := hlacks.2.1
      rw [hgrow] at hno
      cases hload.symm.trans hno

/-- But for the pool and `errno` it is the poller's own. -/
theorem setWatch_refines
    (h : setWatch g watch fd condition data callback memory errno = some (g', ok, errno')) :
    ∃ block, g.poller.setWatch watch fd condition data callback memory.events block =
      some (g'.poller, ok) := by
  unfold setWatch at h
  unfold IOPoller.setWatch
  rcases hgrow : g.poller.growEvents fd memory.events with ⟨poller, _ | _⟩
  · rw [hgrow] at h
    cases h
    exact ⟨none, rfl⟩
  · rw [hgrow] at h
    obtain ⟨element, hload, hrest⟩ := Option.bind_eq_some_iff.mp h
    simp only [hload, Option.bind_eq_bind, Option.bind_some]
    rcases element with _ | event
    · obtain ⟨⟨pool, block, errno₁⟩, -, hnew⟩ := Option.bind_eq_some_iff.mp hrest
      refine ⟨block, ?_⟩
      rcases block with _ | event
      · cases hnew
        rfl
      · obtain ⟨fresh, hfresh, hadd⟩ := Option.bind_eq_some_iff.mp hnew
        obtain ⟨added, hadded, heq⟩ := Option.bind_eq_some_iff.mp hadd
        cases heq
        simp only [hfresh, hadded, Option.bind_some, Option.pure_def]
    · obtain ⟨added, hadded, heq⟩ := Option.bind_eq_some_iff.mp hrest
      cases heq
      exact ⟨none, by simp only [hadded, Option.bind_some, Option.pure_def]⟩

end Poller

/-! ## The timer -/

/-- Source: `Timer.c`, `Timer_SetTimeout`. -/
def setTimeout (g : Globals) (timeout : NodeId) (delay : ℤ) (data : ℕ) (callback : Callback)
    (now : ℕ) (memory : Memory) (errno : ℤ) : Option (Globals × Bool × ℤ) := do
  let (timer, ok) ←
    g.timer.setTimeout timeout delay data callback now memory.segments memory.segment
  return ({ g with timer := timer }, ok, if ok then errno else enomem)

section Timer

variable {g g' : Globals} {timeout : NodeId} {delay : ℤ} {data : ℕ} {callback : Callback} {now : ℕ}
  {memory : Memory} {errno errno' : ℤ} {ok : Bool}

/-- **What a timeout is set to**, and `errno` if it cannot be. -/
theorem setTimeout_spec
    (h : setTimeout g timeout delay data callback now memory errno = some (g', ok, errno')) :
    g'.poller = g.poller ∧ errno' = (if ok then errno else enomem) ∧
      g'.timer.timeoutHeap.key timeout = Timer.dueTime now delay := by
  obtain ⟨⟨timer, inserted⟩, hset, h⟩ := Option.bind_eq_some_iff.mp h
  cases h
  refine ⟨rfl, rfl, ?_⟩
  obtain ⟨⟨heap, inserted'⟩, hinsert, h⟩ := Option.bind_eq_some_iff.mp hset
  cases h
  rw [Heap.key_insertNode hinsert]
  exact Function.update_self ..

/-- But for the heap and `errno` it is that of the timer that is a list. -/
theorem setTimeout_refines {a : Loop.Timer Callback} (hrep : g.timer.Represents a)
    (hnew : timeout ∉ a.nodes) (hroom : a.timeouts.length ≤ 2 ^ 30)
    (h : setTimeout g timeout delay data callback now memory errno = some (g', ok, errno')) :
    g'.poller = g.poller ∧
      g'.timer.Represents (a.setTimeout timeout delay data callback now ok).1 := by
  obtain ⟨⟨timer, inserted⟩, hset, heq⟩ := Option.bind_eq_some_iff.mp h
  cases heq
  obtain ⟨timer', inserted', hset', hrep', -⟩ :=
    hrep.setTimeout hnew hroom delay data callback now memory.segments memory.segment
  cases hset.symm.trans hset'
  exact ⟨rfl, hrep'⟩

end Timer

/-! ## The wait -/

/-- Up to the suspension, or to a return without one; `call` is the stack frame with the context.
Source: `IO.c`, `WaitForFD`. -/
def waitForFD (g : Globals) (call : CallId) (fd : FD) (condition : IOCondition) (timeout : ℤ)
    (now : ℕ) (memory : Memory) (errno : ℤ) : Option (Globals × Bool × ℤ) :=
  if timeout < 0 then
    setWatch g call fd condition call .waitForFDCallback1 memory errno
  else do
    match ← setWatch g call fd condition call .waitForFDCallback2 memory errno with
    | (g, false, errno) => return (g, false, errno)
    | (g, true, errno) =>
      match ← setTimeout g call timeout call .waitForFDCallback3 now memory errno with
      | (g, true, errno) => return (g, true, errno)
      | (g, false, errno) =>
        let poller ← g.poller.clearWatch call
        return ({ g with poller := poller }, false, errno)

section Wait

variable {g g' : Globals} {call : CallId} {fd : FD} {condition : IOCondition} {timeout : ℤ}
  {now : ℕ} {memory : Memory} {errno errno' : ℤ} {ok : Bool}

/-- **What a wait comes to.** The fiber is suspended, with the timeout set; or something is missing,
and `errno` says so unless it is the event. -/
theorem waitForFD_spec
    (h : waitForFD g call fd condition timeout now memory errno = some (g', ok, errno')) :
    (ok = true ∧ ¬g.LacksEvent fd memory ∧
        (0 ≤ timeout → g'.timer.timeoutHeap.key call = Timer.dueTime now timeout)) ∨
      (ok = false ∧ g.LacksEvent fd memory ∧ errno' = errno) ∨
      (ok = false ∧ ¬g.LacksEvent fd memory ∧ errno' = enomem) := by
  unfold waitForFD at h
  split_ifs at h with htimed
  · obtain ⟨-, ⟨rfl, hevent, -⟩ | hfailed⟩ := setWatch_spec h
    · exact .inl ⟨rfl, hevent, fun hle => absurd htimed (not_lt.mpr hle)⟩
    · exact .inr hfailed
  · obtain ⟨⟨watched, _ | _, errno₁⟩, hwatch, hrest⟩ := Option.bind_eq_some_iff.mp h
    · cases hrest
      obtain ⟨-, ⟨⟨⟩, -⟩ | hfailed⟩ := setWatch_spec hwatch
      exact .inr hfailed
    · obtain ⟨⟨timed, _ | _, errno₂⟩, hset, hend⟩ := Option.bind_eq_some_iff.mp hrest
      · obtain ⟨-, ⟨-, hevent, -⟩ | ⟨⟨⟩, -⟩ | ⟨⟨⟩, -⟩⟩ := setWatch_spec hwatch
        obtain ⟨-, rfl, -⟩ := setTimeout_spec hset
        obtain ⟨cleared, -, hcleared⟩ := Option.bind_eq_some_iff.mp hend
        cases hcleared
        exact .inr (.inr ⟨rfl, hevent, rfl⟩)
      · obtain ⟨-, ⟨-, hevent, -⟩ | ⟨⟨⟩, -⟩ | ⟨⟨⟩, -⟩⟩ := setWatch_spec hwatch
        obtain ⟨-, -, hdue⟩ := setTimeout_spec hset
        cases hend
        exact .inl ⟨rfl, hevent, fun _ => hdue⟩

/-- **But for `errno` it is what a wait does to the runtime.** -/
theorem waitForFD_refines {n : ℕ} {s : Runtime n} (hpoller : g.poller = s.poller)
    (htimer : g.timer.Represents s.timer) (hnew : s.nextCall ∉ s.timer.nodes)
    (hroom : s.timer.timeouts.length ≤ 2 ^ 30) (fiber : Sched.FiberId)
    (h : waitForFD g s.nextCall fd condition timeout now memory errno = some (g', ok, errno')) :
    ∃ block inserted s',
      s.waitForFD fiber fd condition timeout now memory.events block inserted = some s' ∧
      s'.poller = g'.poller ∧ g'.timer.Represents s'.timer ∧
      s'.position fiber = if ok then .inCall s.nextCall else s.position fiber := by
  unfold waitForFD at h
  split_ifs at h with htimed
  · obtain ⟨block, hset⟩ := setWatch_refines h
    obtain ⟨htimer', -⟩ := setWatch_spec h
    have huntimed : decide (0 ≤ timeout) = false := by simpa using htimed
    have hset' : (s.enter fiber (.waitForFD fd condition false)).poller.setWatch s.nextCall fd
        condition s.nextCall .waitForFDCallback1 memory.events block = some (g'.poller, ok) := by
      rw [← hset, hpoller]
      rfl
    let entered := s.enter fiber (.waitForFD fd condition false)
    rcases ok with _ | _
    · refine ⟨block, false, { entered with poller := g'.poller }, ?_, rfl, htimer' ▸ htimer, rfl⟩
      simp only [Runtime.waitForFD, huntimed, Bool.false_eq_true, if_false, hset']
      rfl
    · refine ⟨block, false, { entered with poller := g'.poller }.suspend fiber (.inCall s.nextCall),
        ?_, rfl, htimer' ▸ htimer, Function.update_self ..⟩
      simp only [Runtime.waitForFD, huntimed, Bool.false_eq_true, if_false, hset']
      rfl
  · have htimed' : decide (0 ≤ timeout) = true := by simpa using htimed
    obtain ⟨⟨watched, watching, errno₁⟩, hwatch, hrest⟩ := Option.bind_eq_some_iff.mp h
    obtain ⟨block, hset⟩ := setWatch_refines hwatch
    obtain ⟨htimer', -⟩ := setWatch_spec hwatch
    have hset' : (s.enter fiber (.waitForFD fd condition true)).poller.setWatch s.nextCall fd
        condition s.nextCall .waitForFDCallback2 memory.events block =
          some (watched.poller, watching) := by
      rw [← hset, hpoller]
      rfl
    let entered := s.enter fiber (.waitForFD fd condition true)
    rcases watching with _ | _
    · cases hrest
      refine ⟨block, false, { entered with poller := g'.poller }, ?_, rfl, htimer' ▸ htimer, rfl⟩
      simp only [Runtime.waitForFD, htimed', if_true, hset']
      rfl
    · obtain ⟨⟨timed, armed, errno₂⟩, htimeout, hend⟩ := Option.bind_eq_some_iff.mp hrest
      obtain ⟨hsame, hrep⟩ := setTimeout_refines (htimer' ▸ htimer) hnew hroom htimeout
      rcases armed with _ | _
      · obtain ⟨cleared, hclear, heq⟩ := Option.bind_eq_some_iff.mp hend
        cases heq
        have hkind : ({ entered with poller := watched.poller } : Runtime n).kind s.nextCall =
            .waitForFD fd condition true := Function.update_self ..
        rw [hsame] at hclear
        refine ⟨block, false, { entered.note (.clearsWatch s.nextCall watched.poller) with
          poller := cleared }, ?_, rfl, hrep, rfl⟩
        obtain ⟨-, -, hoffset, -⟩ := offsets
        simp only [Runtime.waitForFD, htimed', if_true, hset', Loop.Timer.setTimeout, hoffset]
        exact congrArg some (Runtime.clearWatch_stored hkind hclear)
      · cases hend
        let timer' :=
          (s.timer.setTimeout s.nextCall timeout s.nextCall .waitForFDCallback3 now true).1
        refine ⟨block, true,
          { entered with poller := watched.poller, timer := timer' }.suspend fiber
            (.inCall s.nextCall), ?_, hsame.symm, hrep, Function.update_self ..⟩
        simp only [Runtime.waitForFD, htimed', if_true, hset']
        rfl

end Wait

end Pixy.Retry
