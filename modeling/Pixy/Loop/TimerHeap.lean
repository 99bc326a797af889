import Mathlib
import Pixy.Found.Runs
import Pixy.Loop.Timer
import Pixy.Store.HeapRuns

/-!
# The timer over the heap

`Timer.c` with the heap as `Heap.c` has it: a timeout is its heap node, its due time is the key that
the comparer looks at. `HeapTimer.Represents` connects it with the timer that is a list of timeouts,
and each function does on the heap what its counterpart does on the list: `Represents.setTimeout`,
`Represents.clearTimeout` and `Represents.tick`.

`log` is no part of the program: it says what was set, cleared and fired.
-/

namespace Pixy.Loop

open Pixy.Found Pixy.Poll Pixy.Store

/-- What can happen to a timeout. -/
inductive TimerEvent (F : Type)
  | set (timeout : NodeId) (now : ℕ) (delay : ℤ) (call : AsyncCall F)
  | clear (timeout : NodeId)
  | fire (timeout : NodeId) (now : ℕ) (call : AsyncCall F)
  deriving DecidableEq

/-- `COMPARE` of the due times. Source: `Timer.c`, `TimeoutHeapNode_Compare`. -/
def timeoutHeapNodeCompare (self other : ℕ) : ℤ :=
  (if self > other then 1 else 0) - (if self < other then 1 else 0)

/-- Source: `Timer.h`, `struct Timer`, with the memory of the timeouts. -/
structure HeapTimer (F : Type) where
  /-- The heap; the key of a node is the due time. -/
  timeoutHeap : Heap ℕ
  /-- What the callbacks are called with. -/
  data : NodeId → ℕ
  /-- What is called. -/
  callback : NodeId → F
  /-- What has happened. -/
  log : List (TimerEvent F)

namespace HeapTimer

variable {F : Type}

/-- Source: `Timer.c`, `Timer_Initialize`. -/
def init (slots : Cell → NodeId) (slotNumber : NodeId → ℤ) (dueTime : NodeId → ℕ)
    (data : NodeId → ℕ) (callback : NodeId → F) : HeapTimer F where
  timeoutHeap := .init slots slotNumber dueTime
  data := data
  callback := callback
  log := []

/-- The timeout is written before the heap is asked; `reallocated` and `segment` are the outcomes of
the allocations that the heap makes. Source: `Timer.c`, `Timer_SetTimeout`. -/
def setTimeout (self : HeapTimer F) (timeout : NodeId) (delay : ℤ) (data : ℕ) (callback : F)
    (now : ℕ) (reallocated : Bool) (segment : Option (ℕ → NodeId)) :
    Option (HeapTimer F × Bool) := do
  let dueTime := Timer.dueTime now delay
  let timeoutHeap :=
    { self.timeoutHeap with key := Function.update self.timeoutHeap.key timeout dueTime }
  let (timeoutHeap, ok) ←
    timeoutHeap.insertNode timeoutHeapNodeCompare timeout reallocated segment
  return ({ timeoutHeap := timeoutHeap
            data := Function.update self.data timeout data
            callback := Function.update self.callback timeout callback
            log := if ok then self.log ++ [.set timeout now delay ⟨callback, data⟩]
              else self.log }, ok)

/-- Source: `Timer.c`, `Timer_ClearTimeout`. -/
def clearTimeout (self : HeapTimer F) (timeout : NodeId) : Option (HeapTimer F) := do
  let timeoutHeap ← self.timeoutHeap.removeNode timeoutHeapNodeCompare timeout
  return { self with timeoutHeap := timeoutHeap, log := self.log ++ [.clear timeout] }

/-- The loop, with the top of the heap. Source: `Timer.c`, `Timer_Tick`. -/
def tickLoop (now : ℕ) (memory : ℕ → Bool) :
    ℕ → HeapTimer F → Async F → NodeId → Option (HeapTimer F × Async F × Bool)
  | 0, _, _, _ => none
  | fuel + 1, self, async, timeoutHeapNode =>
    if self.timeoutHeap.key timeoutHeapNode > now then some (self, async, true)
    else
      let call : AsyncCall F := ⟨self.callback timeoutHeapNode, self.data timeoutHeapNode⟩
      match async.addCall call.function call.argument (memory async.calls.length) with
      | (async, false) => some (self, async, false)
      | (async, true) => do
        let timeoutHeap ← self.timeoutHeap.removeNode timeoutHeapNodeCompare timeoutHeapNode
        let self := { self with
          timeoutHeap := timeoutHeap
          log := self.log ++ [.fire timeoutHeapNode now call] }
        match timeoutHeap.getTop with
        | none => return (self, async, true)
        | some timeoutHeapNode => tickLoop now memory fuel self async timeoutHeapNode

/-- `memory` tells whether the queue could grow for each call.
Source: `Timer.c`, `Timer_Tick`. -/
def tick (self : HeapTimer F) (now : ℕ) (memory : ℕ → Bool) (async : Async F) :
    Option (HeapTimer F × Async F × Bool) :=
  match self.timeoutHeap.getTop with
  | none => some (self, async, true)
  | some timeoutHeapNode =>
    tickLoop now memory self.timeoutHeap.numberOfNodes.toNat self async timeoutHeapNode

/-! ## What is in the heap -/

/-- **The heap holds the timeouts of a list**, and the memory their contents. -/
structure Represents (t : HeapTimer F) (a : Timer F) : Prop where
  nodup : a.nodes.Nodup
  /-- With one more, a removal would leave too many for the sift. -/
  few : a.timeouts.length ≤ 2 ^ 30 + 1
  correct : t.timeoutHeap.Correct timeoutHeapNodeCompare a.nodes.toFinset
  contents : ∀ u ∈ a.timeouts, t.timeoutHeap.key u.heapNode = u.dueTime ∧
    t.data u.heapNode = u.data ∧ t.callback u.heapNode = u.callback

/-- The same of any number of timeouts. -/
structure Holds (t : HeapTimer F) (a : Timer F) : Prop where
  nodup : a.nodes.Nodup
  valid : t.timeoutHeap.Valid timeoutHeapNodeCompare a.nodes.toFinset
  contents : ∀ u ∈ a.timeouts, t.timeoutHeap.key u.heapNode = u.dueTime ∧
    t.data u.heapNode = u.data ∧ t.callback u.heapNode = u.callback

end HeapTimer

/-- The comparer of the timer orders the due times as numbers, so the heap's results for a total
preorder are at hand. -/
theorem totalPreorder_dueTime : TotalPreorder timeoutHeapNodeCompare := by
  constructor
  · intro a b
    unfold timeoutHeapNodeCompare
    split_ifs <;> omega
  · intro a b c
    unfold timeoutHeapNodeCompare
    split_ifs <;> omega

/-- That the comparer does not call `a` less than `b` means that `b` is due no later. -/
theorem not_dueTime_lt {a b : ℕ} : ¬timeoutHeapNodeCompare a b < 0 ↔ b ≤ a := by
  unfold timeoutHeapNodeCompare
  split_ifs <;> omega

namespace Timer

variable {F : Type} {a : Timer F} {t : NodeId} {u v : Timeout F}

/-- Without a timeout. -/
def without (a : Timer F) (timeout : NodeId) : Timer F where
  timeouts := a.timeouts.filter fun u => u.heapNode ≠ timeout

/-- The nodes that are left without a timeout are the others, in their order. -/
theorem nodes_without (a : Timer F) (timeout : NodeId) :
    (a.without timeout).nodes = a.nodes.filter (· ≠ timeout) := by
  simp only [nodes, without, List.filter_map]
  rfl

/-- The set of nodes that is left without a timeout is the old one with its node erased, which is
how the heap's removal states it. -/
theorem toFinset_without (a : Timer F) (timeout : NodeId) :
    (a.without timeout).nodes.toFinset = a.nodes.toFinset.erase timeout := by
  rw [nodes_without]
  ext x
  simp [and_comm]

/-- A timeout is left without another exactly if it was there and has another node. -/
theorem mem_without : u ∈ (a.without t).timeouts ↔ u ∈ a.timeouts ∧ u.heapNode ≠ t := by
  simp [without]

/-- What is left after one timeout and then others have gone is what is left after all of them have.
-/
theorem filter_without (a : Timer F) (u : Timeout F) (fired : List (Timeout F)) :
    ((a.without u.heapNode).timeouts.filter fun v => v.heapNode ∉ fired.map (·.heapNode)) =
      a.timeouts.filter fun v => v.heapNode ∉ (u :: fired).map (·.heapNode) := by
  rw [without, List.filter_filter]
  refine List.filter_congr fun v _ => ?_
  by_cases hv : v.heapNode = u.heapNode <;> simp [hv]

/-- A node names a timeout: two timeouts of the heap with one node are the same. -/
theorem unique (h : a.nodes.Nodup) (hu : u ∈ a.timeouts) (hv : v ∈ a.timeouts)
    (hnode : u.heapNode = v.heapNode) : u = v :=
  List.inj_on_of_nodup_map h hu hv hnode

/-- What is due, but for one of those that are due. -/
theorem perm_due (h : a.nodes.Nodup) (hu : u ∈ a.timeouts) {now : ℕ} (hdue : u.dueTime ≤ now) :
    (u :: (a.without u.heapNode).timeouts.filter fun v => v.dueTime ≤ now).Perm
      (a.timeouts.filter fun v => v.dueTime ≤ now) := by
  have hnodup : a.timeouts.Nodup := h.of_map
  refine (List.perm_ext_iff_of_nodup ?_ (hnodup.filter _)).mpr fun v => ?_
  · refine List.nodup_cons.mpr ⟨?_, (hnodup.filter _).filter _⟩
    simp [without]
  · simp only [List.mem_cons, List.mem_filter, mem_without, decide_eq_true_eq]
    constructor
    · rintro (rfl | ⟨⟨hv, -⟩, hle⟩)
      · exact ⟨hu, hdue⟩
      · exact ⟨hv, hle⟩
    · rintro ⟨hv, hle⟩
      by_cases hnode : v.heapNode = u.heapNode
      · exact .inl (unique h hv hu hnode)
      · exact .inr ⟨⟨hv, hnode⟩, hle⟩

/-- If the first one is due no later than any other, the others may come in the order that they
would come in without it. -/
theorem Pops.cons (h : a.nodes.Nodup) (hu : u ∈ a.timeouts) {now : ℕ} (hdue : u.dueTime ≤ now)
    (hfirst : ∀ v ∈ a.timeouts, u.dueTime ≤ v.dueTime) {due : List (Timeout F)}
    (hpops : (a.without u.heapNode).Pops now due) : a.Pops now (u :: due) := by
  obtain ⟨hperm, hsorted⟩ := hpops
  refine ⟨(hperm.cons u).trans (perm_due h hu hdue),
    List.pairwise_cons.mpr ⟨fun v hv => ?_, hsorted⟩⟩
  have hv := (List.mem_filter.mp (hperm.mem_iff.mp hv)).1
  exact hfirst v (mem_without.mp hv).1

/-- There is an order in which the heap may give what is due. -/
theorem exists_pops (a : Timer F) (now : ℕ) : ∃ due, a.Pops now due := by
  refine ⟨(a.timeouts.filter fun v => v.dueTime ≤ now).mergeSort fun v w => v.dueTime ≤ w.dueTime,
    List.mergeSort_perm _ _, ?_⟩
  have htrans : ∀ u v w : Timeout F, decide (u.dueTime ≤ v.dueTime) = true →
      decide (v.dueTime ≤ w.dueTime) = true → decide (u.dueTime ≤ w.dueTime) = true := by
    intro u v w huv hvw
    simp only [decide_eq_true_eq] at huv hvw ⊢
    exact huv.trans hvw
  have htotal : ∀ u v : Timeout F,
      (decide (u.dueTime ≤ v.dueTime) || decide (v.dueTime ≤ u.dueTime)) = true := by
    intro u v
    simpa using le_total u.dueTime v.dueTime
  exact (List.pairwise_mergeSort htrans htotal _).imp fun hle => by simpa using hle

end Timer

namespace HeapTimer.Holds

variable {F : Type} {t t' : HeapTimer F} {a : Timer F}

/-- There are as many nodes as timeouts, since no two timeouts share a node. -/
theorem card_eq (h : t.Holds a) : a.nodes.toFinset.card = a.timeouts.length := by
  rw [List.toFinset_card_of_nodup h.nodup, Timer.nodes, List.length_map]

/-- A heap that holds the timeouts represents them, as long as there are few enough of them and its
slots for the sift to stay within its numbers. -/
theorem represents (h : t.Holds a) (hfew : a.timeouts.length ≤ 2 ^ 30 + 1)
    (hslots : t.timeoutHeap.numberOfSlots ≤ 2 ^ 30 + 2 + heapSegmentLength) : t.Represents a := by
  have hcard := h.card_eq
  exact ⟨h.nodup, hfew, h.valid.correct (by omega) hslots, h.contents⟩

/-- **A timeout that was set**, with room for its slot, is in the heap and in the list, if the call
succeeded, and in neither otherwise. -/
theorem of_setTimeout (h : t.Holds a) {timeout : NodeId} (hnew : timeout ∉ a.nodes) {delay : ℤ}
    {data : ℕ} {callback : F} {now : ℕ} {reallocated : Bool} {segment : Option (ℕ → NodeId)}
    {ok : Bool}
    (hrun : t.setTimeout timeout delay data callback now reallocated segment = some (t', ok))
    (hslots : t'.timeoutHeap.numberOfSlots < 2 ^ 31) :
    t'.Holds (a.setTimeout timeout delay data callback now ok).1 ∧
      t'.log = if ok then t.log ++ [.set timeout now delay ⟨callback, data⟩] else t.log := by
  obtain ⟨⟨heap, inserted⟩, hinsert, heq⟩ := Option.bind_eq_some_iff.mp hrun
  obtain ⟨rfl, rfl⟩ := Prod.mk.inj (Option.some.inj heq)
  have hnew' : timeout ∉ a.nodes.toFinset := by simpa using hnew
  have hvalid :=
    (h.valid.setKey hnew' (Timer.dueTime now delay)).of_insertNode totalPreorder_dueTime
    hnew' hinsert hslots
  have hkey := Heap.key_insertNode hinsert
  have hother : ∀ u ∈ a.timeouts, u.heapNode ≠ timeout := fun u hu heq =>
    hnew (Timer.mem_nodes.mpr ⟨u, hu, heq⟩)
  have hcontents : ∀ u ∈ a.timeouts, heap.key u.heapNode = u.dueTime ∧
      Function.update t.data timeout data u.heapNode = u.data ∧
      Function.update t.callback timeout callback u.heapNode = u.callback := by
    intro u hu
    simp only [hkey, Function.update_of_ne (hother u hu)]
    exact h.contents u hu
  refine ⟨?_, rfl⟩
  rcases inserted with _ | _
  · exact ⟨h.nodup, by simpa [Timer.setTimeout] using hvalid, hcontents⟩
  · have hnodes : (a.setTimeout timeout delay data callback now true).1.nodes =
        a.nodes ++ [timeout] := by simp [Timer.setTimeout, Timer.nodes]
    refine ⟨?_, ?_, fun u hu => ?_⟩
    · rw [hnodes]
      exact List.nodup_append.mpr ⟨h.nodup, List.nodup_singleton _, fun x hx y hy => by
        rw [List.mem_singleton.mp hy]
        exact ne_of_mem_of_not_mem hx hnew⟩
    · have hset : (a.nodes ++ [timeout]).toFinset = insert timeout a.nodes.toFinset := by
        ext x
        simp
      rw [hnodes, hset]
      simpa using hvalid
    · simp only [Timer.setTimeout, if_true, List.mem_append, List.mem_singleton] at hu
      rcases hu with hu | rfl
      · exact hcontents u hu
      · simp [hkey]

/-- **A node that was taken out** of the heap is taken out of the list, and the others stay in both.
-/
theorem of_remove (h : t.Holds a) {timeout : NodeId} (hin : timeout ∈ a.nodes) {heap : Heap ℕ}
    (hremove : t.timeoutHeap.removeNode timeoutHeapNodeCompare timeout = some heap)
    (log : List (TimerEvent F)) :
    ({ t with timeoutHeap := heap, log := log } : HeapTimer F).Holds (a.without timeout) := by
  refine ⟨?_, ?_, fun u hu => ?_⟩
  · rw [Timer.nodes_without]
    exact h.nodup.filter _
  · rw [Timer.toFinset_without]
    exact h.valid.of_removeNode totalPreorder_dueTime (List.mem_toFinset.mpr hin) hremove
  · rw [Heap.key_removeNode hremove]
    exact h.contents u (Timer.mem_without.mp hu).1

/-- It can be, unless there are more than the heap is made for. -/
theorem removes (h : t.Holds a) (hfew : a.timeouts.length ≤ 2 ^ 30 + 1) {timeout : NodeId}
    (hin : timeout ∈ a.nodes) :
    ∃ heap, t.timeoutHeap.removeNode timeoutHeapNodeCompare timeout = some heap := by
  obtain ⟨heap, hremove, -⟩ := h.valid.removeNode_of_card totalPreorder_dueTime
    (by rw [h.card_eq]; exact hfew) (List.mem_toFinset.mpr hin)
  exact ⟨heap, hremove⟩

/-- **The top of the heap** is a timeout that is due no later than any other. -/
theorem getTop (h : t.Holds a) :
    (t.timeoutHeap.getTop = none ∧ a.timeouts = []) ∨
      ∃ u ∈ a.timeouts, t.timeoutHeap.getTop = some u.heapNode ∧
        ∀ v ∈ a.timeouts, u.dueTime ≤ v.dueTime := by
  obtain ⟨hnone, hsome⟩ := h.valid.getTop totalPreorder_dueTime
  rcases htop : t.timeoutHeap.getTop with _ | node
  · have hempty := hnone.mp htop
    rw [List.toFinset_eq_empty_iff, Timer.nodes, List.map_eq_nil_iff] at hempty
    exact .inl ⟨rfl, hempty⟩
  · obtain ⟨hin, hfirst⟩ := hsome node htop
    obtain ⟨u, hu, rfl⟩ := Timer.mem_nodes.mp (List.mem_toFinset.mp hin)
    refine .inr ⟨u, hu, rfl, fun v hv => ?_⟩
    have hle := hfirst v.heapNode (List.mem_toFinset.mpr (Timer.mem_nodes.mpr ⟨v, hv, rfl⟩))
    rw [not_dueTime_lt, (h.contents u hu).1, (h.contents v hv).1] at hle
    exact hle

/-- What a tick took out of the heap. -/
structure Took (t : HeapTimer F) (a : Timer F) (now : ℕ) (async : Async F) (t' : HeapTimer F)
    (async' : Async F) (ok : Bool) (fired : List (Timeout F)) : Prop where
  log : t'.log = t.log ++ fired.map fun u => .fire u.heapNode now u.call
  /-- The heap holds what is left. -/
  holds : t'.Holds ⟨a.timeouts.filter fun u => u.heapNode ∉ fired.map (·.heapNode)⟩
  /-- The calls are theirs. -/
  calls : async'.calls = async.calls ++ fired.map Timeout.call
  /-- They were due, -/
  due : ∀ u ∈ fired, u ∈ a.timeouts ∧ u.dueTime ≤ now
  /-- and unless memory ran out nothing else was. -/
  all : ok = true → ∀ u ∈ a.timeouts, u.dueTime ≤ now → u.heapNode ∈ fired.map (·.heapNode)

/-- A tick that has collected nothing has taken nothing; if memory did not run out, nothing was
due. -/
theorem took_nil (h : t.Holds a) {now : ℕ} {async async' : Async F} {ok : Bool}
    (hcalls : async'.calls = async.calls) (hall : ok = true → ∀ u ∈ a.timeouts, now < u.dueTime) :
    Took t a now async t async' ok [] where
  log := by simp
  holds := by simpa using h
  calls := by simpa using hcalls
  due := by simp
  all hok u hu hdue := absurd hdue (not_le.mpr (hall hok u hu))

/-- One more timeout in front, which was taken out of the heap first. -/
theorem Took.cons {u : Timeout F} {now : ℕ} {async next async' : Async F} {ok : Bool}
    {fired : List (Timeout F)} {t₁ : HeapTimer F} (hu : u ∈ a.timeouts) (hdue : u.dueTime ≤ now)
    (hcalls : next.calls = async.calls ++ [u.call])
    (hlog : t₁.log = t.log ++ [.fire u.heapNode now u.call])
    (hrest : Took t₁ (a.without u.heapNode) now next t' async' ok fired) :
    Took t a now async t' async' ok (u :: fired) := by
  have hholds := hrest.holds
  rw [Timer.filter_without] at hholds
  refine ⟨?_, hholds, ?_, fun v hv => ?_, fun hok v hv hvdue => ?_⟩
  · rw [hrest.log, hlog]
    simp
  · rw [hrest.calls, hcalls]
    simp
  · rcases List.mem_cons.mp hv with rfl | hv
    · exact ⟨hu, hdue⟩
    · obtain ⟨hin, hvdue⟩ := hrest.due v hv
      exact ⟨(Timer.mem_without.mp hin).1, hvdue⟩
  · rw [List.map_cons, List.mem_cons]
    by_cases hnode : v.heapNode = u.heapNode
    · exact .inl hnode
    · exact .inr (hrest.all hok v (Timer.mem_without.mpr ⟨hv, hnode⟩) hvdue)

/-- **The loop**, from the top of the heap on, if it returns. -/
theorem tickLoop (h : t.Holds a) {now : ℕ} {memory : ℕ → Bool} {u : Timeout F} (hu : u ∈ a.timeouts)
    (hfirst : ∀ v ∈ a.timeouts, u.dueTime ≤ v.dueTime) {fuel : ℕ} {async async' : Async F}
    {ok : Bool}
    (hrun : HeapTimer.tickLoop now memory fuel t async u.heapNode = some (t', async', ok)) :
    ∃ fired, Took t a now async t' async' ok fired := by
  induction fuel generalizing t a u async with
  | zero => cases hrun
  | succ fuel ih =>
      obtain ⟨hkey, hdata, hcallback⟩ := h.contents u hu
      have hadded := async.addCall_calls u.callback u.data (memory async.calls.length)
      rw [HeapTimer.tickLoop, hkey, hdata, hcallback] at hrun
      split_ifs at hrun with hlater
      · -- the first one is not due, so none is
        cases hrun
        exact ⟨[], took_nil h rfl fun _ v hv => hlater.trans_le (hfirst v hv)⟩
      · rcases hadd : async.addCall u.callback u.data (memory async.calls.length) with ⟨next, _ | _⟩
        · -- no room for the call: the timeout stays in the heap
          simp only [hadd] at hrun
          cases hrun
          refine ⟨[], took_nil h ?_ (by simp)⟩
          simpa [hadd] using hadded
        · simp only [hadd, Option.bind_eq_bind, Option.bind_eq_some_iff] at hrun
          rw [hadd, if_pos rfl] at hadded
          obtain ⟨heap, hremove, hrun⟩ := hrun
          have hafter := h.of_remove (Timer.mem_nodes.mpr ⟨u, hu, rfl⟩) hremove
            (t.log ++ [.fire u.heapNode now u.call])
          obtain ⟨htop, hempty⟩ | ⟨v, hv, htop, hnext⟩ := hafter.getTop
          · -- it was the last one
            simp only [show heap.getTop = none from htop] at hrun
            cases hrun
            refine ⟨[u], Took.cons hu (not_lt.mp hlater) hadded rfl
              (took_nil hafter rfl fun _ v hv => ?_)⟩
            rw [hempty] at hv
            cases hv
          · simp only [show heap.getTop = some v.heapNode from htop] at hrun
            obtain ⟨fired, htook⟩ := ih hafter hv hnext hrun
            exact ⟨u :: fired, htook.cons hu (not_lt.mp hlater) hadded rfl⟩

/-- **A tick that returns** has taken due timeouts out of the heap and collected their callbacks,
and all that were due unless memory ran out. -/
theorem tick (h : t.Holds a) {now : ℕ} {memory : ℕ → Bool} {async async' : Async F} {ok : Bool}
    (hrun : t.tick now memory async = some (t', async', ok)) :
    ∃ fired, Took t a now async t' async' ok fired := by
  unfold HeapTimer.tick at hrun
  obtain ⟨htop, hempty⟩ | ⟨u, hu, htop, hfirst⟩ := h.getTop
  · rw [htop] at hrun
    cases hrun
    exact ⟨[], took_nil h rfl fun _ u hu => by simp [hempty] at hu⟩
  · rw [htop] at hrun
    exact h.tickLoop hu hfirst hrun

end HeapTimer.Holds

namespace HeapTimer.Represents

variable {F : Type} {t t' : HeapTimer F} {a : Timer F}

/-- A heap that represents timeouts holds them, as its correctness includes that it is laid out as
the code lays it out. -/
theorem holds (h : t.Represents a) : t.Holds a := ⟨h.nodup, h.correct.valid, h.contents⟩

/-! ## Setting and clearing -/

/-- A timer that has just been initialized represents no timeouts, whatever its memory holds. -/
theorem init (slots : Cell → NodeId) (slotNumber : NodeId → ℤ) (dueTime : NodeId → ℕ)
    (data : NodeId → ℕ) (callback : NodeId → F) :
    (HeapTimer.init slots slotNumber dueTime data callback).Represents .init where
  nodup := .nil
  few := Nat.zero_le _
  correct := init_correct slots slotNumber dueTime
  contents := by simp [Timer.init]

/-- There are as many nodes as timeouts, since no two timeouts share a node. -/
theorem card_eq (h : t.Represents a) : a.nodes.toFinset.card = a.timeouts.length := h.holds.card_eq

/-- **Setting** a timeout that is not in the heap, while there are less than the heap is made
for. -/
theorem setTimeout (h : t.Represents a) {timeout : NodeId} (hnew : timeout ∉ a.nodes)
    (hroom : a.timeouts.length ≤ 2 ^ 30) (delay : ℤ) (data : ℕ) (callback : F) (now : ℕ)
    (reallocated : Bool) (segment : Option (ℕ → NodeId)) :
    ∃ t' ok, t.setTimeout timeout delay data callback now reallocated segment = some (t', ok) ∧
      t'.Represents (a.setTimeout timeout delay data callback now ok).1 ∧
      t'.log = if ok then t.log ++ [.set timeout now delay ⟨callback, data⟩] else t.log := by
  have hnew' : timeout ∉ a.nodes.toFinset := by simpa using hnew
  obtain ⟨heap, ok, hinsert, hcorrect⟩ :=
    (h.correct.setKey hnew' (Timer.dueTime now delay)).insertNode totalPreorder_dueTime hnew'
      (by rw [h.card_eq]; exact Nat.le_succ_of_le hroom) reallocated segment
  have hslots := hcorrect.shaped.slots_le
  have hL : heapSegmentLength = 256 := rfl
  let t' : HeapTimer F := ⟨heap, Function.update t.data timeout data,
    Function.update t.callback timeout callback,
    if ok then t.log ++ [.set timeout now delay ⟨callback, data⟩] else t.log⟩
  have hrun : t.setTimeout timeout delay data callback now reallocated segment = some (t', ok) := by
    simp only [HeapTimer.setTimeout, Option.bind_eq_bind, hinsert, Option.bind_some,
      Option.pure_def, t']
  have hless : t'.timeoutHeap.numberOfSlots < 2 ^ 31 := by
    show heap.numberOfSlots < 2 ^ 31
    omega
  obtain ⟨hholds, hlog⟩ := h.holds.of_setTimeout hnew hrun hless
  refine ⟨t', ok, hrun, hholds.represents ?_ hslots, hlog⟩
  rcases ok with _ | _
  · exact h.few
  · simpa [Timer.setTimeout] using Nat.lt_succ_of_le hroom

/-- **Taking a node out** of the heap is possible if it is there, and leaves the other timeouts in
it. -/
theorem remove (h : t.Represents a) {timeout : NodeId} (hin : timeout ∈ a.nodes) :
    ∃ heap, t.timeoutHeap.removeNode timeoutHeapNodeCompare timeout = some heap ∧
      ∀ log, ({ t with timeoutHeap := heap, log := log } : HeapTimer F).Represents
        (a.without timeout) := by
  obtain ⟨heap, hremove, hcorrect⟩ :=
    h.correct.removeNode totalPreorder_dueTime (by rw [h.card_eq]; exact h.few)
      (List.mem_toFinset.mpr hin)
  refine ⟨heap, hremove, fun log => (h.holds.of_remove hin hremove log).represents ?_
    hcorrect.shaped.slots_le⟩
  exact (List.length_filter_le ..).trans h.few

/-- **Clearing** a timeout that is in the heap is possible, and does to the heap what it does to the
list. -/
theorem clearTimeout (h : t.Represents a) {timeout : NodeId} (hin : timeout ∈ a.nodes) :
    ∃ t', t.clearTimeout timeout = some t' ∧ t'.Represents (a.without timeout) ∧
      a.clearTimeout timeout = some (a.without timeout) ∧ t'.log = t.log ++ [.clear timeout] := by
  obtain ⟨heap, hremove, hrepresents⟩ := h.remove hin
  refine ⟨_, ?_, hrepresents _, Timer.clearTimeout_eq hin, rfl⟩
  simp only [HeapTimer.clearTimeout, Option.bind_eq_bind, hremove, Option.bind_some,
    Option.pure_def]

/-! ## The tick -/

/-- What a tick has done: `fired` are the timeouts it took, of all that were due in `due`. -/
structure Ticked (t : HeapTimer F) (a : Timer F) (now : ℕ) (memory : ℕ → Bool) (async : Async F)
    (t' : HeapTimer F) (async' : Async F) (ok : Bool) (fired due : List (Timeout F)) : Prop where
  /-- The heap might have given these in this order. -/
  pops : a.Pops now due
  /-- The tick of the list is the same. -/
  list : Timer.tickLoop memory due a async =
    (⟨a.timeouts.filter fun u => u.heapNode ∉ fired.map (·.heapNode)⟩, async', ok)
  /-- The heap holds what is left. -/
  represents : t'.Represents ⟨a.timeouts.filter fun u => u.heapNode ∉ fired.map (·.heapNode)⟩
  /-- They were taken in order, and all of them unless memory ran out. -/
  taken : fired <+: due
  all : ok = true → fired = due
  /-- The calls are theirs. -/
  calls : async'.calls = async.calls ++ fired.map Timeout.call
  log : t'.log = t.log ++ fired.map fun u => .fire u.heapNode now u.call

/-- Nothing is due, or the first callback could not be collected, and the tick leaves the heap as it
is. -/
theorem ticked_nil (h : t.Represents a) {now : ℕ} {memory : ℕ → Bool} {async async' : Async F}
    {ok : Bool} {due : List (Timeout F)} (hpops : a.Pops now due)
    (hlist : Timer.tickLoop memory due a async = (a, async', ok)) (hall : ok = true → due = [])
    (hcalls : async'.calls = async.calls) :
    Ticked t a now memory async t async' ok [] due where
  pops := hpops
  list := by simpa using hlist
  represents := by simpa using h
  taken := List.nil_prefix
  all hok := (hall hok).symm
  calls := by simpa using hcalls
  log := by simp

/-- One more timeout in front, which was taken out of the heap first. -/
theorem Ticked.cons {u : Timeout F} {now : ℕ} {memory : ℕ → Bool} {async next async' : Async F}
    {ok : Bool} {fired due : List (Timeout F)} {t₁ : HeapTimer F} (h : t.Represents a)
    (hu : u ∈ a.timeouts) (hdue : u.dueTime ≤ now)
    (hfirst : ∀ v ∈ a.timeouts, u.dueTime ≤ v.dueTime)
    (hadd : async.addCall u.callback u.data (memory async.calls.length) = (next, true))
    (hlog : t₁.log = t.log ++ [.fire u.heapNode now u.call])
    (hrest : Ticked t₁ (a.without u.heapNode) now memory next t' async' ok fired due) :
    Ticked t a now memory async t' async' ok (u :: fired) (u :: due) := by
  have hcalls := async.addCall_calls u.callback u.data (memory async.calls.length)
  rw [hadd, if_pos rfl] at hcalls
  have hlist := hrest.list
  have hrepresents := hrest.represents
  rw [Timer.filter_without] at hlist hrepresents
  refine ⟨hrest.pops.cons h.nodup hu hdue hfirst, ?_, hrepresents,
    (List.prefix_cons_inj u).mpr hrest.taken, fun hok => by rw [hrest.all hok], ?_, ?_⟩
  · rw [Timer.tickLoop, hadd]
    exact hlist
  · rw [hrest.calls, hcalls]
    simp [Timeout.call]
  · rw [hrest.log, hlog]
    simp

/-- **The loop**, from the top of the heap on, takes out what is due in an order that the list
allows, by induction over its fuel. -/
theorem tickLoop (h : t.Represents a) (now : ℕ) (memory : ℕ → Bool) {u : Timeout F}
    (hu : u ∈ a.timeouts) (hfirst : ∀ v ∈ a.timeouts, u.dueTime ≤ v.dueTime) {fuel : ℕ}
    (hfuel : a.timeouts.length ≤ fuel) (async : Async F) :
    ∃ t' async' ok fired due,
      HeapTimer.tickLoop now memory fuel t async u.heapNode = some (t', async', ok) ∧
      Ticked t a now memory async t' async' ok fired due := by
  induction fuel generalizing t a u async with
  | zero => exact absurd (List.length_pos_of_mem hu) (by omega)
  | succ fuel ih =>
      obtain ⟨hkey, hdata, hcallback⟩ := h.contents u hu
      rw [HeapTimer.tickLoop, hkey, hdata, hcallback]
      by_cases hlater : u.dueTime > now
      · -- the first one is not due, so none is
        have hnone : a.Pops now [] := by
          refine ⟨?_, .nil⟩
          rw [List.filter_eq_nil_iff.mpr fun v hv => by
            have := hfirst v hv
            simp only [decide_eq_true_eq]
            omega]
        rw [if_pos hlater]
        exact ⟨t, async, true, [], [], rfl, ticked_nil h hnone rfl (fun _ => rfl) rfl⟩
      · have hdue : u.dueTime ≤ now := by omega
        have hcalls := async.addCall_calls u.callback u.data (memory async.calls.length)
        rw [if_neg hlater]
        rcases hadd : async.addCall u.callback u.data (memory async.calls.length) with ⟨next, _ | _⟩
        · -- no room for the call: the timeout stays in the heap
          obtain ⟨rest, hrest⟩ := (a.without u.heapNode).exists_pops now
          refine ⟨t, next, false, [], u :: rest, by simp only [hadd],
            ticked_nil h (hrest.cons h.nodup hu hdue hfirst) ?_ (by simp) ?_⟩
          · rw [Timer.tickLoop, hadd]
          · simpa [hadd] using hcalls
        · obtain ⟨heap, hremove, hrepresents⟩ := h.remove (Timer.mem_nodes.mpr ⟨u, hu, rfl⟩)
          have hafter := hrepresents (t.log ++ [.fire u.heapNode now u.call])
          have hlength : (a.without u.heapNode).timeouts.length < a.timeouts.length :=
            List.length_filter_lt_length_iff_exists.mpr ⟨u, hu, by simp⟩
          simp only [hadd, hremove, Option.bind_eq_bind, Option.bind_some]
          obtain ⟨htop, hempty⟩ | ⟨v, hv, htop, hnext⟩ := hafter.holds.getTop
          · -- it was the last one
            have hnone : (a.without u.heapNode).Pops now [] := ⟨by rw [hempty]; rfl, .nil⟩
            simp only [show heap.getTop = none from htop]
            exact ⟨_, next, true, [u], [u], rfl, Ticked.cons h hu hdue hfirst hadd rfl
              (ticked_nil hafter hnone rfl (fun _ => rfl) rfl)⟩
          · simp only [show heap.getTop = some v.heapNode from htop]
            obtain ⟨t', async', ok, fired, due, hloop, hticked⟩ :=
              ih hafter hv hnext (by omega) next
            exact ⟨t', async', ok, u :: fired, u :: due, hloop,
              Ticked.cons h hu hdue hfirst hadd rfl hticked⟩

/-- **A tick** returns, and does on the heap what the tick of the list does. -/
theorem tick (h : t.Represents a) (now : ℕ) (memory : ℕ → Bool) (async : Async F) :
    ∃ t' async' ok fired due, t.tick now memory async = some (t', async', ok) ∧
      Ticked t a now memory async t' async' ok fired due := by
  unfold HeapTimer.tick
  obtain ⟨htop, hempty⟩ | ⟨u, hu, htop, hfirst⟩ := h.holds.getTop
  · have hnone : a.Pops now [] := ⟨by rw [hempty]; rfl, .nil⟩
    rw [htop]
    exact ⟨t, async, true, [], [], rfl, ticked_nil h hnone rfl (fun _ => rfl) rfl⟩
  · have hnodes : a.timeouts.length ≤ t.timeoutHeap.numberOfNodes.toNat := by
      rw [h.correct.shaped.nodes, h.card_eq]
      simp
    rw [htop]
    exact h.tickLoop now memory hu hfirst hnodes async

/-- **Refinement**: the tick of the list can do whatever the tick of the heap does. -/
theorem tick_refines [DecidableEq F] (h : t.Represents a) {now : ℕ} {memory : ℕ → Bool}
    {async async' : Async F} {ok : Bool} (htick : t.tick now memory async = some (t', async', ok)) :
    ∃ due a', a.tick now due memory async = some (a', async', ok) ∧ t'.Represents a' := by
  obtain ⟨t₁, async₁, ok₁, fired, due, hrun, hticked⟩ := h.tick now memory async
  obtain ⟨rfl, rfl, rfl⟩ : t₁ = t' ∧ async₁ = async' ∧ ok₁ = ok := by
    simpa using hrun.symm.trans htick
  exact ⟨due, _, by rw [Timer.tick, if_pos hticked.pops, hticked.list], hticked.represents⟩

end HeapTimer.Represents

end Pixy.Loop
