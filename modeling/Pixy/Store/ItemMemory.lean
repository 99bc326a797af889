import Mathlib.Data.Finset.Basic
import Pixy.Store.ListItem

/-!
# Lists in memory that comes and goes

Most list items are part of something that is allocated and freed while its neighbours live on. Here
the functions of `List.h` access a memory of which only a part is there (`live`): an access to any
other item is `none`.

`Holds m L` says that the memory holds the lists `L` and that all their nodes are there. Then every
function that is called as it may be finds what it accesses, and the memory holds the lists with the
one changed: `Holds.insert`, `Holds.remove`, `Holds.initHead`, `Holds.allocate`. Where a whole list
has been given back, its head is emptied by `Holds.initHead_of_released`.
-/

namespace Pixy.Store

open Pixy.Found Pixy.Found.Links

variable {α : Type*} [DecidableEq α]

/-- The links of the items, and which items there are. -/
structure ItemMemory (α : Type*) where
  /-- The links. -/
  links : Links α
  /-- What may be accessed. -/
  live : Finset α

namespace ItemMemory

/-! ## The operations -/

/-- Memory is handed out; what is in it is not known. -/
def allocate (self : ItemMemory α) (item prev next : α) : ItemMemory α where
  links := setNext (setPrev self.links item prev) item next
  live := insert item self.live

/-- Memory is given back, which it has to be only once. -/
def release (self : ItemMemory α) (item : α) : Option (ItemMemory α) :=
  if item ∈ self.live then some { self with live := self.live.erase item } else none

/-- Source: `List.h`, `List_Initialize`. -/
def initHead (self : ItemMemory α) (head : α) : Option (ItemMemory α) :=
  if head ∈ self.live then some { self with links := listInitialize self.links head } else none

/-- Source: `List.h`, `ListItem_GetPrev`, which is `List_GetBack` too. -/
def getPrev (self : ItemMemory α) (item : α) : Option α :=
  if item ∈ self.live then some (listItemGetPrev self.links item) else none

/-- Source: `List.h`, `ListItem_GetNext`, which is `List_GetFront` too. -/
def getNext (self : ItemMemory α) (item : α) : Option α :=
  if item ∈ self.live then some (listItemGetNext self.links item) else none

/-- Source: `List.h`, `List_IsEmpty`. -/
def isEmpty (self : ItemMemory α) (head : α) : Option Bool :=
  if head ∈ self.live then some (listIsEmpty self.links head) else none

/-- It accesses all three. Source: `List.h`, `__ListItem_Insert`. -/
def insert (self : ItemMemory α) (item prev next : α) : Option (ItemMemory α) :=
  if item ∈ self.live ∧ prev ∈ self.live ∧ next ∈ self.live then
    some { self with links := listItemInsert self.links item prev next }
  else none

/-- Source: `List.h`, `List_InsertBack`. -/
def insertBack (self : ItemMemory α) (head back : α) : Option (ItemMemory α) := do
  self.insert back (← self.getPrev head) head

/-- Source: `List.h`, `List_InsertFront`. -/
def insertFront (self : ItemMemory α) (head front : α) : Option (ItemMemory α) := do
  self.insert front head (← self.getNext head)

/-- It accesses the item and its neighbours. Source: `List.h`, `ListItem_Remove`. -/
def remove (self : ItemMemory α) (item : α) : Option (ItemMemory α) := do
  let prev ← self.getPrev item
  let next ← self.getNext item
  if prev ∈ self.live ∧ next ∈ self.live then
    some { self with links := listItemRemove self.links item }
  else none

/-! ## The lists in the memory -/

/-- **The memory holds the lists.** -/
structure Holds (m : ItemMemory α) (L : ItemLists α) : Prop where
  rings : m.links.Represents L
  live : ∀ h ∈ L.heads, ∀ x ∈ h :: L.items h, x ∈ m.live

variable {m m' : ItemMemory α} {L : ItemLists α} {h x : α} {l left right : List α}

/-- One list of those it holds has been changed. -/
def Changed (L : ItemLists α) (m' : ItemMemory α) (h : α) (l : List α) : Prop :=
  ∃ L' : ItemLists α, L'.heads = L.heads ∧ L'.items = Function.update L.items h l ∧ m'.Holds L'

omit [DecidableEq α] in
/-- The memory has the head of every list that it holds. -/
theorem Holds.head_live (hm : m.Holds L) (hh : h ∈ L.heads) : h ∈ m.live :=
  hm.live h hh h List.mem_cons_self

omit [DecidableEq α] in
/-- The memory has every item of the lists that it holds. -/
theorem Holds.item_live (hm : m.Holds L) (hh : h ∈ L.heads) (hx : x ∈ L.items h) : x ∈ m.live :=
  hm.live h hh x (List.mem_cons_of_mem h hx)

/-- The back of a list, or its head if there is no item, is what is read in front of the head. -/
theorem Holds.getPrev_head (hm : m.Holds L) (hh : h ∈ L.heads) :
    m.getPrev h = some ((h :: L.items h).getLast (List.cons_ne_nil h _)) := by
  unfold getPrev
  rw [if_pos (hm.head_live hh)]
  exact congrArg some (hm.rings h hh).prev_head

/-- The front of a list, or its head if there is no item, is what is read behind the head. -/
theorem Holds.getNext_head (hm : m.Holds L) (hh : h ∈ L.heads) :
    m.getNext h = some ((L.items h ++ [h]).head (by simp)) := by
  unfold getNext
  rw [if_pos (hm.head_live hh)]
  exact congrArg some (hm.rings h hh).next_head

/-- `List_IsEmpty` finds the head and tells whether the list has no items. -/
theorem Holds.isEmpty_eq (hm : m.Holds L) (hh : h ∈ L.heads) :
    m.isEmpty h = some (decide (L.items h = [])) := by
  unfold isEmpty
  rw [if_pos (hm.head_live hh)]
  have hempty : listIsEmpty m.links h ↔ L.items h = [] :=
    (listIsEmpty_iff m.links h).trans (hm.rings h hh).isEmpty_iff
  congr 1
  rw [Bool.eq_iff_iff, hempty, decide_eq_true_iff]

/-- Other links, in the same memory, that hold the lists with one changed. -/
theorem Holds.changed {new : List α} {links : Links α} (hm : m.Holds L)
    (hturned : Turned L m.links links h new l)
    (hl : ∀ x ∈ l, x ∈ L.items h ∨ x ∈ m.live) (hh : h ∈ L.heads) :
    Changed L { m with links := links } h l := by
  obtain ⟨L', hheads, hitems, hrings⟩ := hturned.represents
  refine ⟨L', hheads, hitems, hrings, ?_⟩
  intro k hk x hx
  rw [hheads] at hk
  rw [hitems] at hx
  by_cases hkh : k = h
  · subst hkh
    rw [Function.update_self] at hx
    rcases List.mem_cons.mp hx with rfl | hx
    · exact hm.head_live hk
    · exact (hl x hx).elim (hm.item_live hk) id
  · rw [Function.update_of_ne hkh] at hx
    exact hm.live k hk x hx

/-- **An insertion**, by the place it makes: between the last node of the items in front of it and
the first of those behind it, either of which may be the head. -/
theorem Holds.insert (hm : m.Holds L) (hh : h ∈ L.heads) (hx : L.Unlinked x) (hlive : x ∈ m.live)
    (hl : L.items h = left ++ right) {prev next : α}
    (hprev : prev = (h :: left).getLast (List.cons_ne_nil h left))
    (hnext : next = (right ++ [h]).head (by simp)) :
    ∃ m', m.insert x prev next = some m' ∧ m'.live = m.live ∧
      Changed L m' h (left ++ x :: right) := by
  have hprev_live : prev ∈ m.live := by
    apply hm.live h hh
    rw [hprev, hl, ← List.cons_append]
    exact List.mem_append_left right (List.getLast_mem _)
  have hnext_live : next ∈ m.live := by
    apply hm.live h hh
    have hmem : next ∈ right ++ [h] := hnext ▸ List.head_mem _
    rw [hl]
    simp only [List.mem_append, List.mem_cons, List.not_mem_nil, or_false] at hmem ⊢
    tauto
  refine ⟨_, if_pos ⟨hlive, hprev_live, hnext_live⟩, rfl, ?_⟩
  refine hm.changed (turned_insert hm.rings hh hx hl hprev hnext) ?_ hh
  intro y hy
  rw [hl]
  rcases List.mem_append.mp hy with hy | hy
  · exact .inl (List.mem_append_left right hy)
  · rcases List.mem_cons.mp hy with rfl | hy
    · exact .inr hlive
    · exact .inl (List.mem_append_right left hy)

/-- An insertion at the end finds the head, the last item and the new one, and makes the list longer
by that at its end. -/
theorem Holds.insertBack (hm : m.Holds L) (hh : h ∈ L.heads) (hx : L.Unlinked x)
    (hlive : x ∈ m.live) :
    ∃ m', m.insertBack h x = some m' ∧ m'.live = m.live ∧ Changed L m' h (L.items h ++ [x]) := by
  unfold ItemMemory.insertBack
  rw [hm.getPrev_head hh]
  exact hm.insert hh hx hlive (List.append_nil _).symm rfl rfl

/-- An insertion at the front finds the head, the first item and the new one, and makes the list
longer by that at its front. -/
theorem Holds.insertFront (hm : m.Holds L) (hh : h ∈ L.heads) (hx : L.Unlinked x)
    (hlive : x ∈ m.live) :
    ∃ m', m.insertFront h x = some m' ∧ m'.live = m.live ∧ Changed L m' h (x :: L.items h) := by
  unfold ItemMemory.insertFront
  rw [hm.getNext_head hh]
  exact hm.insert hh hx hlive (show L.items h = [] ++ L.items h from rfl) rfl rfl

/-- **A removal.** The item is in no list any more, but its memory is there still, with the links it
had. -/
theorem Holds.remove (hm : m.Holds L) (hh : h ∈ L.heads) (hx : x ∈ L.items h) :
    ∃ m', m.remove x = some m' ∧ m'.live = m.live ∧ Changed L m' h ((L.items h).erase x) := by
  obtain ⟨left, right, hl, -, hring⟩ := exists_place hm.rings hh hx
  obtain ⟨hprev, hnext, -, -⟩ := hring.neighbours_mem
  have hlive := hm.item_live hh hx
  have hprev_live : m.links.prev x ∈ m.live := by
    apply hm.live h hh
    rw [hl, ← List.cons_append]
    exact List.mem_append_left _ hprev
  have hnext_live : m.links.next x ∈ m.live := by
    apply hm.live h hh
    rw [hl]
    simp only [List.mem_append, List.mem_cons, List.not_mem_nil, or_false] at hnext ⊢
    tauto
  refine ⟨{ m with links := listItemRemove m.links x }, ?_, rfl, ?_⟩
  · unfold ItemMemory.remove getPrev getNext
    rw [if_pos hlive, if_pos hlive]
    exact if_pos ⟨hprev_live, hnext_live⟩
  · refine hm.changed (turned_listItemRemove hm.rings hh hx).1 ?_ hh
    exact fun y hy => .inl (List.mem_of_mem_erase hy)

/-- **A head is emptied**; what was in its list is in none then. -/
theorem Holds.initHead (hm : m.Holds L) (hh : h ∈ L.heads) :
    ∃ m', m.initHead h = some m' ∧ m'.live = m.live ∧ Changed L m' h [] := by
  refine ⟨_, if_pos (hm.head_live hh), rfl, ?_⟩
  have hturned : Turned L m.links (listInitialize m.links h) h [] [] := by
    refine hm.rings.turned hh (fun x hx => absurd hx List.not_mem_nil)
      (fun x hx => absurd hx List.not_mem_nil) (ring_makeEmpty m.links h) ?_
    intro x hx
    exact makeEmpty_other (List.ne_of_not_mem_cons hx)
  exact hm.changed hturned (fun x hx => absurd hx List.not_mem_nil) hh

/-- **A head is emptied** whose items have all been given back. -/
theorem Holds.initHead_of_released (hm : m.Holds L) (hh : h ∈ L.heads) :
    ∃ m', { m with live := m.live \ (L.items h).toFinset }.initHead h = some m' ∧
      m'.live = m.live \ (L.items h).toFinset ∧ Changed L m' h [] := by
  obtain ⟨emptied, hinit, -, L', hheads, hitems, hm'⟩ := hm.initHead hh
  unfold ItemMemory.initHead at hinit
  rw [if_pos (hm.head_live hh)] at hinit
  cases hinit
  have hhead : h ∉ L.items h := (List.nodup_cons.mp (L.nodup h hh)).1
  refine ⟨_, if_pos (by simp [hm.head_live hh, hhead]), rfl, L', hheads, hitems, hm'.rings, ?_⟩
  intro k hk x hx
  refine Finset.mem_sdiff.mpr ⟨hm'.live k hk x hx, ?_⟩
  rw [List.mem_toFinset]
  intro hin
  rw [hheads] at hk
  rw [hitems] at hx
  by_cases hkh : k = h
  · subst hkh
    rw [Function.update_self] at hx
    exact hhead (List.mem_singleton.mp hx ▸ hin)
  · rw [Function.update_of_ne hkh] at hx
    exact L.apart h hh k hk (Ne.symm hkh) (List.mem_cons_of_mem h hin) hx

/-- **Memory that is handed out** is none that a list is in. -/
theorem Holds.allocate (hm : m.Holds L) (hx : x ∉ m.live) (prev next : α) :
    (m.allocate x prev next).Holds L := by
  refine ⟨?_, fun k hk y hy => Finset.mem_insert_of_mem (hm.live k hk y hy)⟩
  intro k hk
  refine (hm.rings k hk).congr fun y hy => ?_
  have hne : y ≠ x := fun he => hx (he ▸ hm.live k hk y hy)
  simp [ItemMemory.allocate, setNext, setPrev, hne]

end ItemMemory

end Pixy.Store
