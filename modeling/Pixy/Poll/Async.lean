import Pixy.Store.Vector

/-!
# Collected calls

`Async.c`: calls of a function with an argument are collected first and made later. `F` is the type
of the functions; the argument is a `uintptr_t`. Making the calls is the business of whoever can say
what a call does.
-/

namespace Pixy.Poll

open Pixy.Store

/-- Source: `Async.h`, `struct __AsyncCall`. -/
structure AsyncCall (F : Type) where
  /-- What is called. -/
  function : F
  /-- What it is called with. -/
  argument : ℕ
  deriving DecidableEq

/-- The calls are those of the vector's elements that are in use.
Source: `Async.h`, `struct Async`. -/
structure Async (F : Type) where
  /-- The room for calls. -/
  callVector : Vector
  /-- The calls collected, in order; their number is `numberOfCalls`. -/
  calls : List (AsyncCall F)
  deriving DecidableEq

namespace Async

variable {F : Type}

/-- Source: `Async.c`, `Async_Initialize`. -/
def init : Async F where
  callVector := .init 16
  calls := []

/-- `reallocated` tells whether the vector could grow.
Source: `Async.h`, `Async_AddCall`. -/
def addCall (self : Async F) (function : F) (argument : ℕ) (reallocated : Bool) : Async F × Bool :=
  let (callVector, grown) :=
    if self.calls.length = self.callVector.length then
      self.callVector.setLength (self.calls.length + 1) reallocated
    else (self.callVector, true)
  if grown then
    ({ callVector := callVector, calls := self.calls ++ [⟨function, argument⟩] }, true)
  else ({ self with callVector := callVector }, false)

/-- A call is put behind the others, or nothing is put there if memory is short. -/
theorem addCall_calls (self : Async F) (function : F) (argument : ℕ) (reallocated : Bool) :
    (self.addCall function argument reallocated).1.calls =
      if (self.addCall function argument reallocated).2 then
        self.calls ++ [⟨function, argument⟩] else self.calls := by
  unfold addCall
  split
  rename_i grown _
  cases grown <;> rfl

/-- With memory every call is collected: only a failed `realloc` of the vector makes `Async_AddCall`
fail. -/
theorem addCall_of_memory (self : Async F) (function : F) (argument : ℕ) :
    (self.addCall function argument true).2 = true := by
  have hgrown : (if self.calls.length = self.callVector.length then
      self.callVector.setLength (self.calls.length + 1) true
      else (self.callVector, true)).2 = true := by
    split_ifs
    · exact Vector.setLength_of_memory _ _
    · rfl
  simp only [addCall, hgrown]
  rfl

end Async

end Pixy.Poll
