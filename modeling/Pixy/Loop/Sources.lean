import Pixy.Loop.Fibers
import Pixy.Poll.Contents

/-!
# What can wake a fiber

A fiber that is suspended in a call is woken by a watch, a timeout, a work, or a call that is
already collected. `Sources` says that each of these belongs to a waiting call and will wake its
caller, and that no two of the collected calls wake the same fiber.

* `Sources.frame`: operations that concern no source;
* `Sources.block`: a fiber blocks in a new call, with the sources of the kind;
* `Sources.complete`: a call is completed and its sources are gone;
* `Sources.poll`, `Sources.expire`: what the two ticks collect.
-/

namespace Pixy.Loop

open Pixy.Found Pixy.Sched Pixy.Sync Pixy.Poll Pixy.Pool

variable {n : ℕ}

/-- The calls that set a timeout. -/
def CallKind.HasTimeout : CallKind → Bool
  | .waitForFD _ _ timed => timed
  | .sleepCurrentFiber => true
  | .doWork => false

/-- The call that readiness leads to. -/
def readyCall (timed : Bool) (call : CallId) : AsyncCall Callback :=
  ⟨if timed then .waitForFDCallback2 else .waitForFDCallback1, call⟩

namespace Runtime

/-- The call that expiry leads to. -/
def expiry (s : Runtime n) (call : CallId) : AsyncCall Callback :=
  match s.kind call with
  | .sleepCurrentFiber => ⟨.sleepCallback, s.callerOf call⟩
  | _ => ⟨.waitForFDCallback3, call⟩

/-- The fiber that a collected call wakes; `WorkerCallback` wakes those whose works are done. -/
def target (s : Runtime n) (call : AsyncCall Callback) : Option FiberId :=
  match call.function with
  | .workerCallback => none
  | .sleepCallback => some call.argument
  | _ => some (s.callerOf call.argument)

/-- What a collected call stands for: a watch that is still registered, and whose timeout is still
pending, or a timeout that is no longer pending. -/
def Aims (s : Runtime n) (call : AsyncCall Callback) : Prop :=
  call.function = .workerCallback ∨
    (∃ r ∈ s.poller.registered, r.watch ≠ 0 ∧ call = s.poller.callOf r.watch ∧
      ((s.kind r.watch).HasTimeout → r.watch ∈ s.timer.nodes)) ∨
    ∃ k, s.Waiting k ∧ (s.kind k).HasTimeout ∧ call = s.expiry k ∧ k ∉ s.timer.nodes

/-- Everything that can wake a fiber belongs to a waiting call. -/
structure Sources (s : Runtime n) : Prop where
  /-- A registered watch is that of the thread pool or of a waiting `WaitForFD`. -/
  registered : ∀ r ∈ s.poller.registered,
    (r.watch = 0 ∧ s.poller.callOf 0 = ⟨.workerCallback, 0⟩) ∨
      (s.Waiting r.watch ∧ ∃ timed, s.kind r.watch = .waitForFD r.fd r.condition timed ∧
        s.poller.callOf r.watch = readyCall timed r.watch)
  /-- A pending timeout is that of a waiting call. -/
  pending : ∀ t ∈ s.timer.timeouts, s.Waiting t.heapNode ∧ (s.kind t.heapNode).HasTimeout ∧
    t.call = s.expiry t.heapNode
  /-- No call has two timeouts. -/
  nodes : s.timer.nodes.Nodup
  /-- A work that is under way is that of a waiting `DoWork`. -/
  posted : ∀ k, ¬s.pool.Idle k → s.Waiting k ∧ s.kind k = .doWork ∧
    (s.pool.works k).callback = doWorkCallback ∧ (s.pool.works k).data = s.callerOf k
  /-- A collected call stands for something. -/
  collected : ∀ call ∈ s.async.calls, s.Aims call
  /-- No fiber is going to be woken twice. -/
  distinct : (s.async.calls.filterMap s.target).Nodup
  /-- A timeout stays until it is dispatched. -/
  expires : ∀ k, s.Waiting k → (s.kind k).HasTimeout →
    k ∈ s.timer.nodes ∨ s.expiry k ∈ s.async.calls
  /-- A work is under way until it is called back. -/
  works : ∀ k, s.Waiting k → s.kind k = .doWork → ¬s.pool.Idle k

variable {s t : Runtime n} {k : CallId}

/-! ## What a timeout leads to -/

/-- What is called when the timeout of a wait expires is `WaitForFDCallback3` with the call's
context. -/
theorem expiry_waitForFD {fd : FD} {condition : IOCondition} {timed : Bool}
    (hkind : s.kind k = .waitForFD fd condition timed) : s.expiry k = ⟨.waitForFDCallback3, k⟩ := by
  unfold expiry
  rw [hkind]

/-- What is called when a sleep is over is `SleepCallback` with the fiber itself, as a sleep has no
context. -/
theorem expiry_sleep (hkind : s.kind k = .sleepCurrentFiber) :
    s.expiry k = ⟨.sleepCallback, s.callerOf k⟩ := by
  unfold expiry
  rw [hkind]

/-- The calls that have a timeout are the waits that were given one and the sleeps. -/
theorem cases_of_hasTimeout {kind : CallKind} (h : kind.HasTimeout) :
    (∃ fd condition, kind = .waitForFD fd condition true) ∨ kind = .sleepCurrentFiber := by
  rcases kind with ⟨fd, condition, timed⟩ | _ | _
  · obtain rfl : timed = true := h
    exact .inl ⟨fd, condition, rfl⟩
  · exact .inr rfl
  · cases h

/-! ## Targets -/

/-- A readiness callback with the context of a call, of either kind, is to wake the caller. -/
theorem target_readyCall (timed : Bool) : s.target (readyCall timed k) = some (s.callerOf k) := by
  cases timed <;> rfl

/-- The callback of a timeout is to wake the caller, whether the call is a wait or a sleep. -/
theorem target_expiry : s.target (s.expiry k) = some (s.callerOf k) := by
  unfold expiry
  split <;> rfl

/-- The watches of fibers are those of waiting calls of `WaitForFD`; the one that is none of them is
the thread pool's. -/
theorem Sources.watch (h : s.Sources) {r : Registration} (hr : r ∈ s.poller.registered)
    (hne : r.watch ≠ 0) : s.Waiting r.watch ∧ ∃ timed,
      s.kind r.watch = .waitForFD r.fd r.condition timed ∧
        s.poller.callOf r.watch = readyCall timed r.watch :=
  (h.registered r hr).resolve_left fun hw => hne hw.1

/-- What is stored in a registered watch, other than the pool's, is a callback that is to wake the
caller of the wait that set it. -/
theorem Sources.target_callOf (h : s.Sources) {r : Registration} (hr : r ∈ s.poller.registered)
    (hne : r.watch ≠ 0) : s.target (s.poller.callOf r.watch) = some (s.callerOf r.watch) := by
  obtain ⟨-, timed, -, hcall⟩ := h.watch hr hne
  rw [hcall, target_readyCall]

/-- What a timeout leads to when it expires wakes the fiber of the call that it was set for. -/
theorem Sources.target_pending (h : s.Sources) {u : Timeout Callback} (hu : u ∈ s.timer.timeouts) :
    s.target u.call = some (s.callerOf u.heapNode) := by
  obtain ⟨-, -, hexpiry⟩ := h.pending u hu
  rw [hexpiry, target_expiry]

/-- What is called at the expiry depends only on the kind of the call and on who made it. -/
theorem expiry_congr (hkind : t.kind k = s.kind k) (hcaller : t.callerOf k = s.callerOf k) :
    t.expiry k = s.expiry k := by
  unfold expiry
  rw [hkind, hcaller]

/-! ## Operations that concern no source -/

/-- **Frame.** The waiting calls and all that could wake them are the same; watches may be lost
where nothing is collected. -/
theorem Sources.frame (h : s.Sources) (hwaiting : ∀ k, t.Waiting k ↔ s.Waiting k)
    (hkind : ∀ k, s.Waiting k → t.kind k = s.kind k)
    (hcaller : ∀ k, s.Waiting k → t.callerOf k = s.callerOf k)
    (hregistered : ∀ r ∈ t.poller.registered, r ∈ s.poller.registered)
    (hcallOf : ∀ r ∈ t.poller.registered, t.poller.callOf r.watch = s.poller.callOf r.watch)
    (htimer : t.timer = s.timer) (hidle : ∀ k, t.pool.Idle k ↔ s.pool.Idle k)
    (hworks : t.pool.works = s.pool.works) (hcalls : t.async.calls = s.async.calls)
    (hlost : s.async.calls ≠ [] → t.poller.registered = s.poller.registered ∧
      t.context = s.context ∧ t.kind = s.kind) : t.Sources where
  registered r hr := by
    have hcall := hcallOf r hr
    rcases h.registered r (hregistered r hr) with ⟨hzero, hpool⟩ | ⟨hw, timed, hk, hready⟩
    · rw [hzero] at hcall
      exact .inl ⟨hzero, hcall.trans hpool⟩
    · exact .inr ⟨(hwaiting _).mpr hw, timed, (hkind _ hw).trans hk, hcall.trans hready⟩
  pending u hu := by
    rw [htimer] at hu
    obtain ⟨hw, htime, hexpiry⟩ := h.pending u hu
    exact ⟨(hwaiting _).mpr hw, (hkind _ hw).symm ▸ htime,
      hexpiry.trans (expiry_congr (hkind _ hw) (hcaller _ hw)).symm⟩
  nodes := htimer ▸ h.nodes
  posted k hk := by
    rw [hidle] at hk
    obtain ⟨hw, hdo, hcallback, hdata⟩ := h.posted k hk
    rw [hworks]
    exact ⟨(hwaiting k).mpr hw, (hkind k hw).trans hdo, hcallback,
      hdata.trans (hcaller k hw).symm⟩
  collected call hcall := by
    rw [hcalls] at hcall
    obtain ⟨hsame, -, -⟩ := hlost (List.ne_nil_of_mem hcall)
    rcases h.collected call hcall with hpool | ⟨r, hr, hne, rfl, htime⟩ | ⟨k, hw, htime, rfl, hnot⟩
    · exact .inl hpool
    · obtain ⟨hw, -⟩ := h.watch hr hne
      rw [← hsame] at hr
      refine .inr (.inl ⟨r, hr, hne, (hcallOf r hr).symm, ?_⟩)
      rw [hkind _ hw, htimer]
      exact htime
    · refine .inr (.inr ⟨k, (hwaiting k).mpr hw, (hkind k hw).symm ▸ htime, ?_, htimer ▸ hnot⟩)
      exact (expiry_congr (hkind k hw) (hcaller k hw)).symm
  distinct := by
    rw [hcalls]
    by_cases hnil : s.async.calls = []
    · rw [hnil]
      exact List.nodup_nil
    · obtain ⟨-, hcontext, -⟩ := hlost hnil
      have htarget : t.target = s.target := by
        funext call
        simp only [target, callerOf, hcontext]
      rw [htarget]
      exact h.distinct
  expires k hw htime := by
    rw [hwaiting] at hw
    rw [hkind k hw] at htime
    rw [htimer, hcalls, expiry_congr (hkind k hw) (hcaller k hw)]
    exact h.expires k hw htime
  works k hw hdo := by
    rw [hwaiting] at hw
    rw [hkind k hw] at hdo
    rw [hidle]
    exact h.works k hw hdo

/-! ## A call begins -/

/-- **What a fiber does to block** in a new call: it suspends itself, and arms the sources that the
kind of the call asks for. -/
structure Blocks (s t : Runtime n) (fiber : FiberId) (kind : CallKind)
    (new : Option (Timeout Callback)) : Prop where
  /-- The fiber suspends itself. -/
  scheduler : t.scheduler = s.scheduler.suspendCurrentFiber
  /-- It is in the call then. -/
  position : t.position = Function.update s.position fiber (.inCall s.nextCall)
  /-- The call is of this kind. -/
  kinds : t.kind = Function.update s.kind s.nextCall kind
  /-- Its context names the fiber. -/
  context : t.context = Function.update s.context s.nextCall
    { s.context s.nextCall with fiber := fiber }
  /-- The number is taken, and nothing else is touched. -/
  same : t.nextCall = s.nextCall + 1 ∧ t.waiterList = s.waiterList ∧
    t.semaphores = s.semaphores ∧ t.async = s.async ∧ t.phase = s.phase ∧ t.log = s.log ∧
    t.halted = s.halted
  /-- A wait for a descriptor registers its watch. -/
  registered : t.poller.registered = s.poller.registered ++
    match kind with
    | .waitForFD fd condition _ => [⟨s.nextCall, fd, condition⟩]
    | _ => []
  /-- The other watches stay. -/
  watch : ∀ w < s.nextCall, t.poller.watch w = s.poller.watch w
  /-- The new watch leads to the call's callback. -/
  ready : ∀ fd condition timed, kind = .waitForFD fd condition timed →
    t.poller.callOf s.nextCall = readyCall timed s.nextCall
  /-- The new timeout is set last. -/
  timeouts : t.timer.timeouts = s.timer.timeouts ++ new.toList
  /-- It is the call's. -/
  timeout : ∀ u ∈ new, u.heapNode = s.nextCall ∧ u.call = t.expiry s.nextCall
  /-- It is set if the kind has one. -/
  set : new.isSome = kind.HasTimeout
  /-- No work is taken or lost. -/
  batch : t.pool.batch = s.pool.batch
  /-- The other works stay. -/
  others : ∀ k ≠ s.nextCall, (t.pool.Idle k ↔ s.pool.Idle k) ∧ t.pool.works k = s.pool.works k
  /-- A work is posted if the kind has one. -/
  posted : ¬t.pool.Idle s.nextCall ↔ kind = .doWork
  /-- It is the fiber's. -/
  work : kind = .doWork → (t.pool.works s.nextCall).callback = doWorkCallback ∧
    (t.pool.works s.nextCall).data = fiber

namespace Blocks

variable {fiber : FiberId} {kind : CallKind} {new : Option (Timeout Callback)}

/-- The call that the step begins is of the kind that the step says. -/
theorem kind_new (h : s.Blocks t fiber kind new) : t.kind s.nextCall = kind := by
  rw [h.kinds, Function.update_self]

/-- The kind of every earlier call is the same as before the step. -/
theorem kind_old (h : s.Blocks t fiber kind new) (hk : k < s.nextCall) : t.kind k = s.kind k := by
  rw [h.kinds, Function.update_of_ne (Nat.ne_of_lt hk)]

/-- The caller of the call that the step begins is the fiber that took the step. -/
theorem caller_new (h : s.Blocks t fiber kind new) : t.callerOf s.nextCall = fiber := by
  unfold callerOf
  rw [h.context, Function.update_self]

/-- The context of every earlier call is as it was; only that of the new call has been written. -/
theorem context_old (h : s.Blocks t fiber kind new) (hk : k < s.nextCall) :
    t.context k = s.context k := by
  rw [h.context, Function.update_of_ne (Nat.ne_of_lt hk)]

/-- Who made an earlier call does not change when a new one begins. -/
theorem caller_old (h : s.Blocks t fiber kind new) (hk : k < s.nextCall) :
    t.callerOf k = s.callerOf k := by
  unfold callerOf
  rw [h.context_old hk]

/-- What is stored in the watch of an earlier call does not change when a new one begins. -/
theorem callOf_old (h : s.Blocks t fiber kind new) (hk : k < s.nextCall) :
    t.poller.callOf k = s.poller.callOf k := by
  unfold IOPoller.callOf
  rw [h.watch k hk]

/-- A watch is an old one or that of the call. -/
theorem registered_cases (h : s.Blocks t fiber kind new) {r : Registration}
    (hr : r ∈ t.poller.registered) : r ∈ s.poller.registered ∨ r.watch = s.nextCall ∧
      ∃ timed, kind = .waitForFD r.fd r.condition timed := by
  rw [h.registered, List.mem_append] at hr
  rcases hr with hr | hr
  · exact .inl hr
  · cases kind with
    | waitForFD fd condition timed =>
        rw [List.mem_singleton] at hr
        subst hr
        exact .inr ⟨rfl, timed, rfl⟩
    | sleepCurrentFiber => cases hr
    | doWork => cases hr

/-- A timeout of the heap afterwards was there before, or is the new one. -/
theorem mem_nodes (h : s.Blocks t fiber kind new) {node : ℕ} :
    node ∈ t.timer.nodes ↔ node ∈ s.timer.nodes ∨ ∃ u ∈ new, u.heapNode = node := by
  simp only [Timer.mem_nodes, h.timeouts, List.mem_append, Option.mem_toList]
  constructor
  · rintro ⟨u, hu | hu, rfl⟩
    · exact .inl ⟨u, hu, rfl⟩
    · exact .inr ⟨u, hu, rfl⟩
  · rintro (⟨u, hu, rfl⟩ | ⟨u, hu, rfl⟩)
    · exact ⟨u, .inl hu, rfl⟩
    · exact ⟨u, .inr hu, rfl⟩

/-- What the timeout of an older call leads to when it expires is the same as before. -/
theorem expiry_old (h : s.Blocks t fiber kind new) (hk : k < s.nextCall) :
    t.expiry k = s.expiry k :=
  expiry_congr (h.kind_old hk) (h.caller_old hk)

/-- The new watch belongs to the call, and every other one to the call that it belonged to or to the
thread pool. -/
theorem registered_sources (h : s.Blocks t fiber kind new) (hs : s.Sources)
    (hlt : ∀ k, s.Waiting k → k < s.nextCall) (hpositive : 0 < s.nextCall)
    (hwaiting : ∀ k, t.Waiting k ↔ s.Waiting k ∨ k = s.nextCall) {r : Registration}
    (hr : r ∈ t.poller.registered) : (r.watch = 0 ∧ t.poller.callOf 0 = ⟨.workerCallback, 0⟩) ∨
      (t.Waiting r.watch ∧ ∃ timed, t.kind r.watch = .waitForFD r.fd r.condition timed ∧
        t.poller.callOf r.watch = readyCall timed r.watch) := by
  rcases h.registered_cases hr with hr | ⟨hrw, timed, hk⟩
  · rcases hs.registered r hr with ⟨hzero, hpool⟩ | ⟨hw, timed, hk, hready⟩
    · exact .inl ⟨hzero, (h.callOf_old hpositive).trans hpool⟩
    · have hold := hlt _ hw
      exact .inr ⟨(hwaiting _).mpr (.inl hw), timed, (h.kind_old hold).trans hk,
        (h.callOf_old hold).trans hready⟩
  · rw [hrw]
    exact .inr ⟨(hwaiting _).mpr (.inr rfl), timed, h.kind_new.trans hk, h.ready _ _ _ hk⟩

/-- The new timeout belongs to the call, and every other one to the call that it belonged to. -/
theorem pending_sources (h : s.Blocks t fiber kind new) (hs : s.Sources)
    (hlt : ∀ k, s.Waiting k → k < s.nextCall)
    (hwaiting : ∀ k, t.Waiting k ↔ s.Waiting k ∨ k = s.nextCall) {u : Timeout Callback}
    (hu : u ∈ t.timer.timeouts) : t.Waiting u.heapNode ∧ (t.kind u.heapNode).HasTimeout ∧
      u.call = t.expiry u.heapNode := by
  rw [h.timeouts, List.mem_append, Option.mem_toList] at hu
  rcases hu with hu | hu
  · obtain ⟨hw, htime, hexpiry⟩ := hs.pending u hu
    have hold := hlt _ hw
    exact ⟨(hwaiting _).mpr (.inl hw), (h.kind_old hold).symm ▸ htime,
      hexpiry.trans (h.expiry_old hold).symm⟩
  · obtain ⟨hnode, hexpiry⟩ := h.timeout u hu
    rw [hnode]
    refine ⟨(hwaiting _).mpr (.inr rfl), ?_, hexpiry⟩
    rw [h.kind_new, ← h.set, Option.isSome_of_mem hu]

/-- No other timeout is the call's, so the nodes of the heap still differ. -/
theorem nodup_nodes (h : s.Blocks t fiber kind new) (hs : s.Sources)
    (hlt : ∀ k, s.Waiting k → k < s.nextCall) : t.timer.nodes.Nodup := by
  rw [Timer.nodes, h.timeouts, List.map_append]
  refine List.nodup_append.mpr ⟨hs.nodes, ?_, ?_⟩
  · rcases new with _ | u <;> simp
  · rintro node hin other hother rfl
    obtain ⟨u, hu, rfl⟩ := List.mem_map.mp hother
    rw [Option.mem_toList] at hu
    obtain ⟨v, hv, hnode⟩ := List.mem_map.mp hin
    have hlater := hlt _ (hs.pending v hv).1
    rw [hnode, (h.timeout u hu).1] at hlater
    exact lt_irrefl _ hlater

/-- The new work belongs to the call, and every other one under way to the call that it belonged to.
-/
theorem posted_sources (h : s.Blocks t fiber kind new) (hs : s.Sources)
    (hlt : ∀ k, s.Waiting k → k < s.nextCall)
    (hwaiting : ∀ k, t.Waiting k ↔ s.Waiting k ∨ k = s.nextCall) (hk : ¬t.pool.Idle k) :
    t.Waiting k ∧ t.kind k = .doWork ∧ (t.pool.works k).callback = doWorkCallback ∧
      (t.pool.works k).data = t.callerOf k := by
  by_cases hne : k = s.nextCall
  · subst hne
    have hdo := h.posted.mp hk
    rw [h.caller_new]
    exact ⟨(hwaiting _).mpr (.inr rfl), h.kind_new.trans hdo, h.work hdo⟩
  · obtain ⟨hsame, hworks⟩ := h.others k hne
    rw [hsame] at hk
    obtain ⟨hw, hdo, hcallback, hdata⟩ := hs.posted k hk
    have hold := hlt k hw
    rw [hworks]
    exact ⟨(hwaiting _).mpr (.inl hw), (h.kind_old hold).trans hdo, hcallback,
      hdata.trans (h.caller_old hold).symm⟩

end Blocks

/-- **A fiber blocks in a new call**, with a watch, a timeout or a work as the kind of the call asks
for. -/
theorem Sources.block (h : s.Sources) {fiber : FiberId} {kind : CallKind}
    {new : Option (Timeout Callback)} (hblocks : s.Blocks t fiber kind new)
    (hlt : ∀ k, s.Waiting k → k < s.nextCall) (hpositive : 0 < s.nextCall)
    (hcalls : s.async.calls = [])
    (hwaiting : ∀ k, t.Waiting k ↔ s.Waiting k ∨ k = s.nextCall) : t.Sources := by
  obtain ⟨-, -, -, hasync, -⟩ := hblocks.same
  have hnone : t.async.calls = [] := by rw [hasync, hcalls]
  constructor
  · exact fun r => hblocks.registered_sources h hlt hpositive hwaiting
  · exact fun u => hblocks.pending_sources h hlt hwaiting
  · exact hblocks.nodup_nodes h hlt
  · exact fun k => hblocks.posted_sources h hlt hwaiting
  · rw [hnone]
    intro call hcall
    cases hcall
  · rw [hnone]
    exact List.nodup_nil
  · intro k hw htime
    left
    rw [hblocks.mem_nodes]
    rcases (hwaiting k).mp hw with hw | rfl
    · rw [hblocks.kind_old (hlt k hw)] at htime
      have hin := h.expires k hw htime
      rw [hcalls] at hin
      exact .inl (hin.resolve_right List.not_mem_nil)
    · rw [hblocks.kind_new, ← hblocks.set] at htime
      obtain ⟨u, hu⟩ := Option.isSome_iff_exists.mp htime
      exact .inr ⟨u, hu, (hblocks.timeout u hu).1⟩
  · intro k hw hdo
    rcases (hwaiting k).mp hw with hw | rfl
    · rw [hblocks.kind_old (hlt k hw)] at hdo
      rw [(hblocks.others k (hlt k hw).ne).1]
      exact h.works k hw hdo
    · exact hblocks.posted.mpr (hblocks.kind_new.symm.trans hdo)

/-! ## A call ends -/

/-- **What a callback does to complete a call**: it wakes the caller, and the sources of the call
are gone. -/
structure Ends (s t : Runtime n) (k : CallId) : Prop where
  /-- The caller is resumed. -/
  scheduler : t.scheduler = s.scheduler.resumeFiber (s.callerOf k)
  /-- Nothing else is touched. -/
  same : t.position = s.position ∧ t.callerOf = s.callerOf ∧ t.nextCall = s.nextCall ∧
    t.waiterList = s.waiterList ∧ t.semaphores = s.semaphores ∧ t.kind = s.kind ∧
    t.phase = s.phase ∧ t.halted = s.halted
  /-- The watch is gone. -/
  registered : t.poller.registered = s.poller.registered.filter fun r => r.watch ≠ k
  /-- The others lead where they led. -/
  watch : t.poller.watch = s.poller.watch
  /-- The timeout is gone. -/
  timeouts : t.timer.timeouts = s.timer.timeouts.filter fun u => u.heapNode ≠ k
  /-- The work is done. -/
  done : ∀ j, t.pool.Idle j ↔ s.pool.Idle j ∨ j = k
  /-- The works are what they were. -/
  works : t.pool.works = s.pool.works
  /-- No call is added to those collected. -/
  calls : t.async.calls.Sublist s.async.calls
  /-- None of them will wake the caller again. -/
  gone : ∀ call ∈ t.async.calls, s.target call ≠ some (s.callerOf k)
  /-- Only what would wake the caller is taken from them. -/
  kept : ∀ call ∈ s.async.calls, s.target call ≠ some (s.callerOf k) → call ∈ t.async.calls

namespace Ends

/-- The end of a call changes the kind of none, its own included. -/
theorem kind_eq (h : s.Ends t k) : t.kind = s.kind := h.same.2.2.2.2.2.1

/-- The end of a call overwrites no watch, so what is stored in each of them is as it was. -/
theorem callOf_eq (h : s.Ends t k) : t.poller.callOf = s.poller.callOf := by
  funext w
  unfold IOPoller.callOf
  rw [h.watch]

/-- The end of a call does not change what the timeouts of the others will call. -/
theorem expiry_eq (h : s.Ends t k) : t.expiry = s.expiry := by
  funext j
  exact expiry_congr (congrFun h.kind_eq j) (congrFun h.same.2.1 j)

/-- The end of a call does not change whom the other callbacks are to wake. -/
theorem target_eq (h : s.Ends t k) : t.target = s.target := by
  funext call
  simp only [target, h.same.2.1]

/-- After the end of a call its timeout is not pending, and all others are as they were. -/
theorem mem_nodes (h : s.Ends t k) {node : ℕ} :
    node ∈ t.timer.nodes ↔ node ∈ s.timer.nodes ∧ node ≠ k :=
  Timer.mem_nodes_of_filter (· ≠ k) h.timeouts

/-- What is still collected after the end of a call stands for what it stood for, as no call is
collected twice. -/
theorem aims (h : s.Ends t k) (hs : s.Sources)
    (hwaiting : ∀ j, t.Waiting j ↔ s.Waiting j ∧ j ≠ k) {call : AsyncCall Callback}
    (hcall : call ∈ t.async.calls) : t.Aims call := by
  have htarget := h.gone call hcall
  rcases hs.collected call (h.calls.subset hcall) with
    hpool | ⟨r, hr, hne, rfl, htime⟩ | ⟨j, hw, htime, rfl, hnot⟩
  · exact .inl hpool
  · have hrk : r.watch ≠ k := by
      intro he
      rw [hs.target_callOf hr hne, he] at htarget
      exact htarget rfl
    refine .inr (.inl ⟨r, ?_, hne, by rw [h.callOf_eq], ?_⟩)
    · rw [h.registered, List.mem_filter]
      exact ⟨hr, by simpa using hrk⟩
    · rw [h.kind_eq, h.mem_nodes]
      exact fun ht => ⟨htime ht, hrk⟩
  · have hjk : j ≠ k := by
      rintro rfl
      rw [target_expiry] at htarget
      exact htarget rfl
    refine .inr (.inr ⟨j, (hwaiting j).mpr ⟨hw, hjk⟩, ?_, by rw [h.expiry_eq], ?_⟩)
    · rw [h.kind_eq]
      exact htime
    · rw [h.mem_nodes]
      exact fun hin => hnot hin.1

end Ends

/-- **A call is completed**: its caller is woken, its watch, timeout and work are gone, and no
collected call will wake the caller again. -/
theorem Sources.complete (h : s.Sources) (hw : s.Waiting k) (hends : s.Ends t k)
    (hwaiting : ∀ j, t.Waiting j ↔ s.Waiting j ∧ j ≠ k) : t.Sources := by
  obtain ⟨-, hcaller, -⟩ := hends.same
  have hkind := hends.kind_eq
  constructor
  · intro r hr
    rw [hends.registered, List.mem_filter] at hr
    rw [hwaiting, hkind, hends.callOf_eq]
    rcases h.registered r hr.1 with hpool | ⟨hw', timed, hk, hready⟩
    · exact .inl hpool
    · exact .inr ⟨⟨hw', by simpa using hr.2⟩, timed, hk, hready⟩
  · intro u hu
    rw [hends.timeouts, List.mem_filter] at hu
    obtain ⟨hw', htime, hexpiry⟩ := h.pending u hu.1
    rw [hwaiting, hkind, hends.expiry_eq]
    exact ⟨⟨hw', by simpa using hu.2⟩, htime, hexpiry⟩
  · rw [Timer.nodes, hends.timeouts]
    exact h.nodes.sublist (List.filter_sublist.map _)
  · intro j hj
    rw [hends.done, not_or] at hj
    rw [hwaiting, hkind, hends.works, hcaller]
    obtain ⟨hw', hrest⟩ := h.posted j hj.1
    exact ⟨⟨hw', hj.2⟩, hrest⟩
  · exact fun call => hends.aims h hwaiting
  · rw [hends.target_eq]
    exact h.distinct.sublist (hends.calls.filterMap _)
  · intro j hj htime
    obtain ⟨hw', hjk⟩ := (hwaiting j).mp hj
    rw [hkind] at htime
    rw [hends.mem_nodes, hends.expiry_eq]
    rcases h.expires j hw' htime with hin | hin
    · exact .inl ⟨hin, hjk⟩
    · refine .inr (hends.kept _ hin ?_)
      rw [target_expiry]
      exact fun hc => hjk (hw'.unique hw (Option.some.inj hc))
  · intro j hj hdo
    obtain ⟨hw', hjk⟩ := (hwaiting j).mp hj
    rw [hkind] at hdo
    rw [hends.done, not_or]
    exact ⟨h.works j hw' hdo, hjk⟩

/-! ## The ticks -/

/-- Different waiting calls have different callers, so what is collected for them wakes different
fibers. -/
theorem nodup_targets {α : Type} {l : List α} (call : α → CallId) {made : α → AsyncCall Callback}
    (hl : (l.map call).Nodup) (htarget : ∀ x ∈ l, s.target (made x) = none ∨
      s.Waiting (call x) ∧ s.target (made x) = some (s.callerOf (call x))) :
    ((l.map made).filterMap s.target).Nodup := by
  rw [List.filterMap_map, List.Nodup, List.pairwise_filterMap]
  rw [List.Nodup, List.pairwise_map] at hl
  refine hl.imp_of_mem fun {x y} hx hy hne => ?_
  rintro fiber hfiber fiber' hfiber' rfl
  rw [Function.comp_apply] at hfiber hfiber'
  rcases htarget x hx with hnone | ⟨hwx, hx⟩
  · rw [hnone] at hfiber
    cases hfiber
  rcases htarget y hy with hnone | ⟨hwy, hy⟩
  · rw [hnone] at hfiber'
    cases hfiber'
  · apply hne
    rw [hx] at hfiber
    rw [hy] at hfiber'
    exact hwx.unique hwy (Option.some.inj (hfiber.trans hfiber'.symm))

/-- **What `IOPoller_Tick` collects** are callbacks of registered watches, each once, and so of
calls that wait. -/
theorem Sources.poll (h : s.Sources) (hpositive : ∀ k, s.Waiting k → 0 < k) {dirty : List EventId}
    (hshape : s.poller.Shape dirty) (hnil : s.async.calls = []) {freeSlot : EventId → Node}
    {outcome : EpollWait} {memory : ℕ → Bool} {poller : IOPoller Callback} {async : Async Callback}
    (htick : s.poller.tick freeSlot outcome memory s.async = some (poller, async, true))
    (phase : Phase) : Sources { s with poller := poller, async := async, phase := phase } := by
  obtain ⟨hflush, hflushed, hregistered, hcollected⟩ := hshape.tick htick
  have hcallOf : poller.callOf = s.poller.callOf := by
    funext w
    unfold IOPoller.callOf
    rw [IOPoller.watch_flush hflush]
  -- an interrupted `epoll_wait` is no success
  rcases outcome with _ | evs
  · have := htick
    simp [IOPoller.tick, hflush] at this
  obtain ⟨taken, -, hcalls, hall⟩ := hcollected
  rw [hall rfl, hnil, List.nil_append] at hcalls
  have hevs := IOPoller.nodup_of_tick htick
  have hwoken : ∀ w ∈ evs.flatMap poller.wokenBy, ∃ r ∈ s.poller.registered, r.watch = w := by
    intro w hw
    obtain ⟨ev, -, hw⟩ := List.mem_flatMap.mp hw
    obtain ⟨c, hr⟩ := IOPoller.mem_wokenBy hw
    exact ⟨_, hregistered ▸ hr, rfl⟩
  have hzero : ∀ r ∈ s.poller.registered, r.watch = 0 →
      s.poller.callOf r.watch = ⟨.workerCallback, 0⟩ := by
    intro r hr hr0
    rcases h.registered r hr with ⟨-, hpool⟩ | ⟨hw, -⟩
    · rwa [hr0]
    · exact absurd hr0 (hpositive _ hw).ne'
  constructor
  · intro r hr
    rw [hcallOf]
    exact h.registered r (hregistered ▸ hr)
  · exact h.pending
  · exact h.nodes
  · exact h.posted
  · intro call hcall
    obtain ⟨w, hw, rfl⟩ := List.mem_map.mp (hcalls ▸ hcall)
    obtain ⟨r, hr, rfl⟩ := hwoken w hw
    rw [hcallOf]
    by_cases hne : r.watch = 0
    · exact .inl (congrArg AsyncCall.function (hzero r hr hne))
    · obtain ⟨hwait, -⟩ := h.watch hr hne
      refine .inr (.inl ⟨r, hregistered.symm ▸ hr, hne, congrFun hcallOf.symm _, fun htime => ?_⟩)
      have hin := h.expires r.watch hwait htime
      rw [hnil] at hin
      exact hin.resolve_right List.not_mem_nil
  · rw [hcalls, hcallOf]
    refine nodup_targets id ?_ fun w hw => ?_
    · rw [List.map_id]
      exact IOPoller.nodup_wokenBy hflushed.sound.watches hevs
    · obtain ⟨r, hr, rfl⟩ := hwoken w hw
      by_cases hne : r.watch = 0
      · left
        rw [hzero r hr hne]
        rfl
      · exact .inr ⟨(h.watch hr hne).1, h.target_callOf hr hne⟩
  · intro k hw htime
    have hin := h.expires k hw htime
    rw [hnil] at hin
    exact .inl (hin.resolve_right List.not_mem_nil)
  · exact h.works

/-- **What `Timer_Tick` collects** are callbacks of timeouts that it takes out of the heap, each
once, and so of calls that wait. -/
theorem Sources.expire (h : s.Sources) (hnil : s.async.calls = []) {now : ℕ}
    {due : List (Timeout Callback)} {memory : ℕ → Bool} {timer : Timer Callback}
    {async : Async Callback}
    (htick : s.timer.tick now due memory s.async = some (timer, async, true)) (phase : Phase)
    (clock : ℕ) :
    Sources { s with timer := timer, async := async, phase := phase, clock := clock } := by
  unfold Timer.tick at htick
  split_ifs at htick with hpops
  obtain ⟨hcalls, htimeouts⟩ := Timer.tickLoop_spec (Option.some.inj htick)
  rw [hnil, List.nil_append] at hcalls
  obtain ⟨hdue, hnodup⟩ := hpops.nodup h.nodes
  have hnodes : ∀ node, node ∈ timer.nodes ↔
      node ∈ s.timer.nodes ∧ node ∉ due.map (·.heapNode) :=
    fun _ => Timer.mem_nodes_of_filter (· ∉ due.map (·.heapNode)) htimeouts
  constructor
  · exact h.registered
  · intro u hu
    rw [htimeouts] at hu
    exact h.pending u (List.mem_filter.mp hu).1
  · rw [Timer.nodes, htimeouts]
    exact h.nodes.sublist (List.filter_sublist.map _)
  · exact h.posted
  · intro call hcall
    obtain ⟨u, hu, rfl⟩ := List.mem_map.mp (hcalls ▸ hcall)
    obtain ⟨hw, htime, hexpiry⟩ := h.pending u (hdue u hu)
    refine .inr (.inr ⟨u.heapNode, hw, htime, hexpiry, ?_⟩)
    rw [hnodes]
    exact fun hin => hin.2 (List.mem_map_of_mem hu)
  · rw [hcalls]
    refine nodup_targets (s := s) Timeout.heapNode hnodup fun u hu => ?_
    exact .inr ⟨(h.pending u (hdue u hu)).1, h.target_pending (hdue u hu)⟩
  · intro k hw htime
    have hin := h.expires k hw htime
    rw [hnil] at hin
    have hin := hin.resolve_right List.not_mem_nil
    rw [hnodes]
    by_cases hk : k ∈ due.map (·.heapNode)
    · obtain ⟨u, hu, rfl⟩ := List.mem_map.mp hk
      refine .inr ?_
      rw [hcalls]
      exact List.mem_map.mpr ⟨u, hu, (h.pending u (hdue u hu)).2.2⟩
    · exact .inl ⟨hin, hk⟩
  · exact h.works

end Runtime

end Pixy.Loop
