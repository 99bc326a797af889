import Mathlib
import Pixy.Poll.Async
import Pixy.Store.Heap

/-!
# The timer

`Timer.c` over a priority queue. The heap of timeouts is the list of those it holds: `Heap_GetTop`
gives one that is due no later than any other, and which one of several is the environment's choice,
so a tick is told the order in which it will find them (`Timer.Pops`).
-/

namespace Pixy.Loop

open Pixy.Poll Pixy.Store

/-- Source: `Timer.h`, `struct Timeout`. -/
structure Timeout (F : Type) where
  /-- Its heap node, which is what names it. -/
  heapNode : NodeId
  /-- When it is due. -/
  dueTime : ℕ
  /-- What the callback is called with. -/
  data : ℕ
  /-- What is called. -/
  callback : F
  deriving DecidableEq

/-- The call that its expiry leads to. -/
def Timeout.call {F : Type} (self : Timeout F) : AsyncCall F := ⟨self.callback, self.data⟩

/-- Source: `Timer.h`, `struct Timer`. -/
structure Timer (F : Type) where
  /-- The timeouts in the heap. -/
  timeouts : List (Timeout F)
  deriving DecidableEq

namespace Timer

variable {F : Type}

/-- Source: `Timer.c`, `Timer_Initialize`. -/
def init : Timer F where
  timeouts := []

/-- The nodes in the heap. -/
def nodes (self : Timer F) : List NodeId := self.timeouts.map (·.heapNode)

/-- When a timeout is due that is set now, as a `uint64_t`. -/
def dueTime (now : ℕ) (delay : ℤ) : ℕ :=
  if 0 ≤ delay then (now + delay.toNat) % 2 ^ 64 else 2 ^ 64 - 1

/-- `inserted` tells whether the heap had room or could grow.
Source: `Timer.c`, `Timer_SetTimeout`. -/
def setTimeout (self : Timer F) (timeout : NodeId) (delay : ℤ) (data : ℕ) (callback : F) (now : ℕ)
    (inserted : Bool) : Timer F × Bool :=
  if inserted then
    ({ timeouts := self.timeouts ++ [⟨timeout, dueTime now delay, data, callback⟩] }, true)
  else (self, false)

/-- A node that is not in the heap has no slot number to remove it by.
Source: `Timer.c`, `Timer_ClearTimeout`. -/
def clearTimeout (self : Timer F) (timeout : NodeId) : Option (Timer F) :=
  if timeout ∈ self.nodes then
    some { timeouts := self.timeouts.filter fun t => t.heapNode ≠ timeout }
  else none

/-- What the heap may give one after the other until the top is not due. -/
def Pops (self : Timer F) (now : ℕ) (due : List (Timeout F)) : Prop :=
  due.Perm (self.timeouts.filter fun t => t.dueTime ≤ now) ∧
    due.Pairwise fun t u => t.dueTime ≤ u.dueTime

instance [DecidableEq F] (self : Timer F) (now : ℕ) (due : List (Timeout F)) :
    Decidable (self.Pops now due) :=
  inferInstanceAs (Decidable (_ ∧ _))

/-- The loop of `Timer_Tick`: the call is collected before the node is removed. -/
def tickLoop (memory : ℕ → Bool) : List (Timeout F) → Timer F → Async F → Timer F × Async F × Bool
  | [], self, async => (self, async, true)
  | t :: due, self, async =>
    match async.addCall t.callback t.data (memory async.calls.length) with
    | (async, false) => (self, async, false)
    | (async, true) =>
      tickLoop memory due { timeouts := self.timeouts.filter fun u =>
        u.heapNode ≠ t.heapNode } async

/-- Source: `Timer.c`, `Timer_Tick`. -/
def tick [DecidableEq F] (self : Timer F) (now : ℕ) (due : List (Timeout F)) (memory : ℕ → Bool)
    (async : Async F) : Option (Timer F × Async F × Bool) :=
  if self.Pops now due then some (tickLoop memory due self async) else none

/-! ## What the operations do -/

/-- A node is in the heap if it is that of a pending timeout. -/
theorem mem_nodes {self : Timer F} {node : NodeId} :
    node ∈ self.nodes ↔ ∃ t ∈ self.timeouts, t.heapNode = node := by
  simp [nodes]

/-- The nodes after some timeouts have gone are those of the timeouts that were kept. -/
theorem mem_nodes_of_filter {self after : Timer F} (keep : NodeId → Prop) [DecidablePred keep]
    (h : after.timeouts = self.timeouts.filter fun t => keep t.heapNode) {node : NodeId} :
    node ∈ after.nodes ↔ node ∈ self.nodes ∧ keep node := by
  simp only [mem_nodes, h, List.mem_filter, decide_eq_true_eq]
  constructor
  · rintro ⟨t, ⟨ht, hkeep⟩, rfl⟩
    exact ⟨⟨t, ht, rfl⟩, hkeep⟩
  · rintro ⟨⟨t, ht, rfl⟩, hkeep⟩
    exact ⟨t, ⟨ht, hkeep⟩, rfl⟩

/-- A timeout in the heap can be cleared, and all others stay. -/
theorem clearTimeout_eq {self : Timer F} {timeout : NodeId} (h : timeout ∈ self.nodes) :
    self.clearTimeout timeout =
      some { timeouts := self.timeouts.filter fun t => t.heapNode ≠ timeout } := if_pos h

/-- **A tick that collects everything** takes what is due out of the heap. -/
theorem tickLoop_spec {memory : ℕ → Bool} {due : List (Timeout F)} {self self' : Timer F}
    {async async' : Async F} (h : tickLoop memory due self async = (self', async', true)) :
    async'.calls = async.calls ++ due.map Timeout.call ∧
      self'.timeouts = self.timeouts.filter fun u => u.heapNode ∉ due.map (·.heapNode) := by
  induction due generalizing self async with
  | nil =>
      simp only [tickLoop, Prod.mk.injEq, and_true] at h
      obtain ⟨rfl, rfl⟩ := h
      simp
  | cons t due ih =>
      have hadd := async.addCall_calls t.callback t.data (memory async.calls.length)
      rw [tickLoop] at h
      rcases hres : async.addCall t.callback t.data (memory async.calls.length) with ⟨next, _ | _⟩
      · simp [hres] at h
      · simp only [hres] at h hadd
        obtain ⟨hcalls, htimeouts⟩ := ih h
        constructor
        · rw [hcalls, hadd]
          simp [Timeout.call]
        · rw [htimeouts, List.filter_filter]
          refine List.filter_congr fun u _ => ?_
          by_cases hu : u.heapNode = t.heapNode <;> simp [hu]

/-- What is due is in the heap, and each of the due timeouts is in it once. -/
theorem Pops.nodup {self : Timer F} {now : ℕ} {due : List (Timeout F)} (h : self.Pops now due)
    (hnodes : self.nodes.Nodup) :
    (∀ t ∈ due, t ∈ self.timeouts) ∧ (due.map (·.heapNode)).Nodup := by
  constructor
  · intro t ht
    exact (List.mem_filter.mp (h.1.mem_iff.mp ht)).1
  · rw [(h.1.map _).nodup_iff]
    exact hnodes.sublist (List.filter_sublist.map _)

end Timer

end Pixy.Loop
