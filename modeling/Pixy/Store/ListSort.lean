import Mathlib.Algebra.Order.Group.Unbundled.Int
import Mathlib.Tactic.Common
import Pixy.Found.Ring

/-!
# Sorting a ring

`List_Sort` is a quicksort on the links. A range is given by the addresses of two link fields, one
that leads to its first item and one that leads to its last; the fields are outside the range, but
they are rewritten as items move. The pivot is the first item; the others are visited from the back
and those that are less are moved in front of it.

The comparer is any function of two items and of a state of its own, so that it may answer what it
likes and something else each time. `trace` is no part of the program: it says what was done, call
by call, comparison by comparison and move by move.
-/

namespace Pixy.Store

open Pixy.Found

variable {α κ : Type}

/-- The address of a link field of an item or a head. -/
inductive LinkField (α : Type)
  | prev (item : α)
  | next (item : α)

/-- What the field holds. -/
def LinkField.read (m : Links α) : LinkField α → α
  | .prev item => m.prev item
  | .next item => m.next item

/-- The answer for two items, and what the comparer remembers. -/
abbrev ItemComparer (α κ : Type) := κ → α → α → ℤ × κ

/-- What the sort does. -/
inductive SortStep (α : Type)
  /-- `List_Quicksort` is called, with the links as they are. -/
  | call (links : Links α) (front back : LinkField α)
  /-- The comparer is called. -/
  | compare (item other : α)
  /-- An item is moved in front of another. -/
  | move (item other : α)

/-- The memory that the sort works on. -/
structure Sorting (α κ : Type) where
  /-- The links of all list items and heads. -/
  links : Links α
  /-- What the comparer remembers. -/
  comparer : κ
  /-- What has been done. -/
  trace : List (SortStep α)

namespace Sorting

/-- Call the comparer. -/
def compare (itemComparer : ItemComparer α κ) (s : Sorting α κ) (item other : α) :
    ℤ × Sorting α κ :=
  let (answer, comparer) := itemComparer s.comparer item other
  (answer, { s with comparer := comparer, trace := s.trace ++ [.compare item other] })

variable [DecidableEq α]

/-- `ListItem_Remove(item)` and `ListItem_InsertBefore(item, other)`. -/
def move (s : Sorting α κ) (item other : α) : Sorting α κ :=
  { s with
    links := (s.links.remove item).insertBefore item other
    trace := s.trace ++ [.move item other] }

variable (itemComparer : ItemComparer α κ)

/-- The loop. Source: `List.c`, `List_Quicksort`. -/
def partition (item1 : α) : ℕ → Sorting α κ → α → Option (Sorting α κ)
  | 0, _, _ => none
  | fuel + 1, s, item2 =>
    let (answer, s) := s.compare itemComparer item2 item1
    let item3 := item2
    let item2 := s.links.prev item2
    let s := if answer ≥ 0 then s else s.move item3 item1
    if item2 ≠ item1 then partition item1 fuel s item2 else some s

/-- Source: `List.c`, `List_Quicksort`. -/
def listQuicksort : ℕ → Sorting α κ → LinkField α → LinkField α → Option (Sorting α κ)
  | 0, _, _, _ => none
  | fuel + 1, s, front, back =>
    let s := { s with trace := s.trace ++ [.call s.links front back] }
    let item1 := front.read s.links
    let item2 := back.read s.links
    if item2 = item1 then some s
    else do
      let s ← s.partition itemComparer item1 fuel item2
      let s ← (if front.read s.links ≠ item1 then listQuicksort fuel s front (.prev item1)
        else some s)
      (if back.read s.links ≠ item1 then listQuicksort fuel s (.next item1) back else some s)

/-- Source: `List.c`, `List_Sort`. -/
def listSort (fuel : ℕ) (s : Sorting α κ) (head : α) : Option (Sorting α κ) :=
  s.listQuicksort itemComparer fuel (.next head) (.prev head)

end Sorting

/-! ## Ranges -/

/-- **A range of a ring**: its fields are those of the neighbours. -/
structure Range (m : Links α) (head : α) (left items right : List α) (front back : LinkField α) :
    Prop where
  /-- The items are in the ring, between others. -/
  ring : m.Ring head (left ++ items ++ right)
  /-- The first field is that of the node before. -/
  front : front = .next ((head :: left).getLast (List.cons_ne_nil head left))
  /-- The second is that of the node after. -/
  back : back = .prev ((right ++ [head]).head (by simp))

/-- Two memories differ in the given nodes at most. -/
def AgreeOutside (nodes : List α) (m m' : Links α) : Prop :=
  ∀ y ∉ nodes, m'.prev y = m.prev y ∧ m'.next y = m.next y

/-- A step has to do with items of a range only. A range that it calls the function for is not
empty, and smaller. -/
def SortStep.Within (head : α) (items : List α) : SortStep α → Prop
  | call links front back => ∃ left inner right, Range links head left inner right front back ∧
      inner ≠ [] ∧ inner ⊆ items ∧ inner.length < items.length
  | compare item other => item ∈ items ∧ other ∈ items
  | move item other => item ∈ items ∧ other ∈ items

/-- The comparer answers for a total preorder on the items. -/
structure Orders (itemComparer : ItemComparer α κ) (le : α → α → Prop) (items : List α) : Prop where
  /-- A negative answer means less. -/
  answer : ∀ memory, ∀ x ∈ items, ∀ y ∈ items, 0 ≤ (itemComparer memory x y).1 ↔ le y x
  total : ∀ x ∈ items, ∀ y ∈ items, le x y ∨ le y x
  trans : ∀ x ∈ items, ∀ y ∈ items, ∀ z ∈ items, le x y → le y z → le x z

section Lemmas

variable {m m' m'' : Links α} {head : α} {left items right nodes nodes' : List α}
  {front back : LinkField α}

/-- What the first of the two fields holds is the first item of the range, or what follows the range
if it is empty. -/
theorem Range.read_front (h : Range m head left items right front back) :
    front.read m = (items ++ right ++ [head]).head (by simp) := by
  have hring := h.ring
  rw [List.append_assoc] at hring
  rw [h.front]
  exact hring.next_getLast

/-- What the second of the two fields holds is the last item of the range, or what precedes the
range if it is empty. -/
theorem Range.read_back (h : Range m head left items right front back) :
    back.read m = (head :: (left ++ items)).getLast (List.cons_ne_nil _ _) := by
  rw [h.back]
  exact h.ring.prev_head_append

/-- A memory agrees with itself everywhere, so also outside any nodes. -/
theorem AgreeOutside.refl (nodes : List α) (m : Links α) : AgreeOutside nodes m m :=
  fun _ _ => ⟨rfl, rfl⟩

/-- Two changes that stay within some nodes, one after the other, stay within them. -/
theorem AgreeOutside.trans (h : AgreeOutside nodes m m') (h' : AgreeOutside nodes' m' m'')
    (hsame : nodes' ⊆ nodes) : AgreeOutside nodes m m'' := by
  intro y hy
  have h := h y hy
  have h' := h' y fun hin => hy (hsame hin)
  exact ⟨h'.1.trans h.1, h'.2.trans h.2⟩

/-- A step within a range is within a larger one too, so the steps of a half are steps of the whole.
-/
theorem SortStep.Within.mono {items' : List α} {step : SortStep α} (h : step.Within head items)
    (hsub : items ⊆ items') (hlength : items.length ≤ items'.length) : step.Within head items' := by
  cases step with
  | call links front back =>
      obtain ⟨left, inner, right, hrange, hne, hinner, hlt⟩ := h
      exact ⟨left, inner, right, hrange, hne, List.Subset.trans hinner hsub,
        Nat.lt_of_lt_of_le hlt hlength⟩
  | compare item other => exact ⟨hsub h.1, hsub h.2⟩
  | move item other => exact ⟨hsub h.1, hsub h.2⟩

/-- A comparer that orders some items orders fewer of them as well. -/
theorem Orders.mono {itemComparer : ItemComparer α κ} {le : α → α → Prop} {items' : List α}
    (h : Orders itemComparer le items) (hsub : items' ⊆ items) : Orders itemComparer le items' where
  answer memory x hx y hy := h.answer memory x (hsub hx) y (hsub hy)
  total x hx y hy := h.total x (hsub hx) y (hsub hy)
  trans x hx y hy z hz := h.trans x (hsub hx) y (hsub hy) z (hsub hz)

/-- What is less than another item by some answer is less, and what is not is not. -/
theorem Orders.sides {itemComparer : ItemComparer α κ} {le : α → α → Prop} {x y : α}
    (h : Orders itemComparer le items) (hx : x ∈ items) (hy : y ∈ items) :
    ((∃ memory, ¬0 ≤ (itemComparer memory x y).1) → le x y) ∧
      ((∃ memory, 0 ≤ (itemComparer memory x y).1) → le y x) := by
  constructor
  · rintro ⟨memory, hless⟩
    rw [h.answer memory x hx y hy] at hless
    exact (h.total x hx y hy).resolve_right hless
  · rintro ⟨memory, hgreater⟩
    exact (h.answer memory x hx y hy).mp hgreater

end Lemmas

end Pixy.Store
