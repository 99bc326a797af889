import Mathlib.Data.List.InsertIdx
import Mathlib.Data.Nat.Basic
import Pixy.Found.Rings

/-!
# The intrusive list

The inline functions and the loops of `List.h`, as what they read and assign, in a memory that gives
each list item its two links. They are the operations on rings that the other modules use, and on a
memory of rings each of them does to one list what its name says and nothing else:

* `turned_insert`: an insertion, by the place it makes for the new item;
* `turned_listItemReplace`, `turned_listItemRemove`: replacement and removal;
* `forEachListItemSafe_eq`, `forEachListItemSafeReverse_eq`: the loops whose body may remove the
  item it is called for are folds over the items there were at the start.

Since a removed item keeps its links, whether it was alone can be read from them before and after.
-/

namespace Pixy.Store

open Pixy.Found Pixy.Found.Links

variable {α : Type*} {σ : Type*} [DecidableEq α]

/-! ## The operations -/

/-- `item->prev = value`. -/
def setPrev (m : Links α) (item value : α) : Links α :=
  { m with prev := Function.update m.prev item value }

/-- `item->next = value`. -/
def setNext (m : Links α) (item value : α) : Links α :=
  { m with next := Function.update m.next item value }

/-- Source: `List.h`, `__ListItem_Insert`. -/
def listItemInsert (m : Links α) (self prev next : α) : Links α :=
  let m := setPrev m self prev
  let m := setNext m prev self
  let m := setNext m self next
  setPrev m next self

/-- Source: `List.h`, `List_Initialize`. -/
def listInitialize (m : Links α) (head : α) : Links α :=
  let m := setPrev m head head
  setNext m head head

/-- Source: `List.h`, `List_InsertBack`. -/
def listInsertBack (m : Links α) (head back : α) : Links α :=
  listItemInsert m back (m.prev head) head

/-- Source: `List.h`, `List_InsertFront`. -/
def listInsertFront (m : Links α) (head front : α) : Links α :=
  listItemInsert m front head (m.next head)

/-- Source: `List.h`, `List_IsEmpty`. -/
def listIsEmpty (m : Links α) (head : α) : Bool := decide (m.prev head = head)

/-- Source: `List.h`, `ListItem_InsertBefore`. -/
def listItemInsertBefore (m : Links α) (self other : α) : Links α :=
  listItemInsert m self (m.prev other) other

/-- Source: `List.h`, `ListItem_InsertAfter`. -/
def listItemInsertAfter (m : Links α) (self other : α) : Links α :=
  listItemInsert m self other (m.next other)

/-- Source: `List.h`, `ListItem_Replace`. -/
def listItemReplace (m : Links α) (self other : α) : Links α :=
  listItemInsert m other (m.prev self) (m.next self)

/-- Source: `List.h`, `ListItem_Remove`. -/
def listItemRemove (m : Links α) (self : α) : Links α :=
  let m := setNext m (m.prev self) (m.next self)
  setPrev m (m.next self) (m.prev self)

omit [DecidableEq α] in
/-- Source: `List.h`, `ListItem_GetPrev`. -/
def listItemGetPrev (m : Links α) (self : α) : α := m.prev self

omit [DecidableEq α] in
/-- Source: `List.h`, `ListItem_GetNext`. -/
def listItemGetNext (m : Links α) (self : α) : α := m.next self

/-- The loop of the two macros below, once `listItem` and `temp` have been assigned. -/
def forEachListItemFrom (advance : σ → α → α) (body : σ → α → σ) (listHead : α) :
    ℕ → σ → α → α → Option σ
  | 0, _, _, _ => none
  | fuel + 1, s, listItem, temp =>
    if listItem ≠ listHead then
      let s := body s listItem
      let listItem := temp
      let temp := advance s listItem
      forEachListItemFrom advance body listHead fuel s listItem temp
    else some s

/-- Source: `List.h`, `FOR_EACH_LIST_ITEM_SAFE`; the body is any code, `links` what it leaves of the
links. -/
def forEachListItemSafe (links : σ → Links α) (body : σ → α → σ) (fuel : ℕ) (s : σ)
    (listHead : α) : Option σ :=
  let listItem := (links s).next listHead
  let temp := (links s).next listItem
  forEachListItemFrom (fun s => (links s).next) body listHead fuel s listItem temp

/-- Source: `List.h`, `FOR_EACH_LIST_ITEM_SAFE_REVERSE`. -/
def forEachListItemSafeReverse (links : σ → Links α) (body : σ → α → σ) (fuel : ℕ) (s : σ)
    (listHead : α) : Option σ :=
  let listItem := (links s).prev listHead
  let temp := (links s).prev listItem
  forEachListItemFrom (fun s => (links s).prev) body listHead fuel s listItem temp

/-! ## As operations on rings

The other modules have these for the functions of `List.h`. -/

section Found

variable (m : Links α) (head self other : α)

/-- `List_Initialize` makes its head a ring without items, by linking it to itself both ways. -/
theorem listInitialize_eq : listInitialize m head = m.makeEmpty head := rfl

/-- `List_InsertBack` is the insertion in front of the head, behind what was the last item. -/
theorem listInsertBack_eq : listInsertBack m head self = m.insertBack head self := rfl

/-- `List_InsertFront` is the insertion behind the head, in front of what was the first item. -/
theorem listInsertFront_eq : listInsertFront m head self = m.insertFront head self := rfl

/-- `ListItem_InsertBefore` is the insertion between a node, which may be a head, and its
predecessor. -/
theorem listItemInsertBefore_eq : listItemInsertBefore m self other = m.insertBefore self other :=
  rfl

/-- `ListItem_Replace` links the new item between the neighbours of the old one, which keeps its
links. -/
theorem listItemReplace_eq : listItemReplace m self other = m.replace self other := rfl

/-- `ListItem_Remove` links the neighbours of the item to each other, and leaves the item's own
links. -/
theorem listItemRemove_eq : listItemRemove m self = m.remove self := rfl

/-- `List_IsEmpty` looks at the link backwards of the head only, which leads to the head itself in
an empty ring. -/
theorem listIsEmpty_iff : listIsEmpty m head ↔ m.IsEmpty head := decide_eq_true_iff

end Found

/-! ## Places in a list -/

section Places

variable {h x y : α} {l left right : List α}

omit [DecidableEq α] in
/-- Inserting at the length of the left part puts the new item between the two parts. -/
theorem insertIdx_length (left right : List α) (x : α) :
    (left ++ right).insertIdx left.length x = left ++ x :: right := by
  induction left with
  | nil => rfl
  | cons y left ih => exact congrArg (y :: ·) ih

/-- The place in front of a node of the ring; that in front of the head is at the end. -/
theorem exists_before (hy : y ∈ h :: l) :
    ∃ left right, l = left ++ right ∧ (right ++ [h]).head (by simp) = y ∧
      l.idxOf y = left.length := by
  by_cases hin : y ∈ l
  · obtain ⟨left, right, rfl, hleft⟩ := List.eq_append_cons_of_mem hin
    refine ⟨left, y :: right, rfl, rfl, ?_⟩
    simp [List.idxOf_append_of_notMem hleft]
  · have hyh : y = h := (List.mem_cons.mp hy).resolve_right hin
    refine ⟨l, [], (List.append_nil l).symm, hyh.symm, ?_⟩
    exact List.idxOf_of_notMem hin

/-- The place behind a node of the ring; that behind the head is at the start. -/
theorem exists_after (hy : y ∈ h :: l) :
    ∃ left right, l = left ++ right ∧ (h :: left).getLast (List.cons_ne_nil h left) = y ∧
      (h :: l).idxOf y = left.length := by
  by_cases hyh : y = h
  · exact ⟨[], l, rfl, hyh.symm, by simp [hyh]⟩
  · have hin : y ∈ l := (List.mem_cons.mp hy).resolve_left hyh
    obtain ⟨left, right, rfl, hleft⟩ := List.eq_append_cons_of_mem hin
    refine ⟨left ++ [y], right, by simp, by simp, ?_⟩
    rw [List.idxOf_cons_ne _ (Ne.symm hyh), List.idxOf_append_of_notMem hleft]
    simp

end Places

/-! ## What the operations do to a memory of rings -/

section Turned

variable {m : Links α} {L : ItemLists α} {h x y : α} {left right : List α}

/-- **An insertion**, by the place it makes: the nodes it is told lie on both sides of it. -/
theorem turned_insert (hm : m.Represents L) (hh : h ∈ L.heads) (hx : L.Unlinked x)
    (hl : L.items h = left ++ right) {prev next : α}
    (hprev : prev = (h :: left).getLast (List.cons_ne_nil h left))
    (hnext : next = (right ++ [h]).head (by simp)) :
    Turned L m (listItemInsert m x prev next) h [x] (left ++ x :: right) := by
  have hring : m.Ring h (left ++ right) := hl ▸ hm h hh
  have hfresh : x ∉ h :: (left ++ right) := hl ▸ hx h hh
  subst hprev hnext
  apply hm.turned hh
  · intro z hz
    rw [hl]
    simp only [List.mem_append, List.mem_cons] at hz ⊢
    tauto
  · intro z hz
    exact List.mem_singleton.mp hz ▸ hx
  · exact hring.insertBetween hfresh
  · intro z hz
    rw [hl] at hz
    exact hring.insertBetween_other hz

/-- **An insertion at the end** appends the item to the list. -/
theorem turned_listInsertBack (hm : m.Represents L) (hh : h ∈ L.heads) (hx : L.Unlinked x) :
    Turned L m (listInsertBack m h x) h [x] (L.items h ++ [x]) :=
  turned_insert hm hh hx (List.append_nil _).symm (hm h hh).prev_head rfl

/-- **An insertion at the front** puts the item in front of the list. -/
theorem turned_listInsertFront (hm : m.Represents L) (hh : h ∈ L.heads) (hx : L.Unlinked x) :
    Turned L m (listInsertFront m h x) h [x] (x :: L.items h) :=
  turned_insert hm hh hx (show L.items h = [] ++ L.items h from rfl) rfl (hm h hh).next_head

/-- **An insertion in front of a node** puts the item in its place in the list, and at the end where
the node is the head. -/
theorem turned_listItemInsertBefore (hm : m.Represents L) (hh : h ∈ L.heads) (hx : L.Unlinked x)
    (hy : y ∈ h :: L.items h) :
    Turned L m (listItemInsertBefore m x y) h [x]
      ((L.items h).insertIdx ((L.items h).idxOf y) x) := by
  obtain ⟨left, right, hl, hnext, hplace⟩ := exists_before hy
  have hring : m.Ring h (left ++ right) := hl ▸ hm h hh
  have hprev : m.prev y = (h :: left).getLast (List.cons_ne_nil h left) := by
    rw [← hnext]
    exact hring.prev_head_append
  have hitems : (L.items h).insertIdx ((L.items h).idxOf y) x = left ++ x :: right := by
    rw [hplace, hl, insertIdx_length]
  rw [hitems]
  exact turned_insert hm hh hx hl hprev hnext.symm

/-- **An insertion behind a node** puts the item behind it in the list, and at the front where the
node is the head. -/
theorem turned_listItemInsertAfter (hm : m.Represents L) (hh : h ∈ L.heads) (hx : L.Unlinked x)
    (hy : y ∈ h :: L.items h) :
    Turned L m (listItemInsertAfter m x y) h [x]
      ((L.items h).insertIdx ((h :: L.items h).idxOf y) x) := by
  obtain ⟨left, right, hl, hprev, hplace⟩ := exists_after hy
  have hring : m.Ring h (left ++ right) := hl ▸ hm h hh
  have hnext : m.next y = (right ++ [h]).head (by simp) := by
    rw [← hprev]
    exact hring.next_getLast
  have hitems : (L.items h).insertIdx ((h :: L.items h).idxOf y) x = left ++ x :: right := by
    rw [hplace, hl, insertIdx_length]
  rw [hitems]
  exact turned_insert hm hh hx hl hprev.symm hnext

omit [DecidableEq α] in
/-- Where an item stands in its list there are items in front of it and items behind it, and it is
not among the former. -/
theorem exists_place (hm : m.Represents L) (hh : h ∈ L.heads) (hy : y ∈ L.items h) :
    ∃ left right, L.items h = left ++ y :: right ∧ y ∉ left ∧ m.Ring h (left ++ y :: right) := by
  obtain ⟨left, right, hl, hleft⟩ := List.eq_append_cons_of_mem hy
  exact ⟨left, right, hl, hleft, hl ▸ hm h hh⟩

/-- **A replacement.** The old item is unlinked then, with the links it had. -/
theorem turned_listItemReplace (hm : m.Represents L) (hh : h ∈ L.heads) (hx : L.Unlinked x)
    (hy : y ∈ L.items h) :
    Turned L m (listItemReplace m y x) h [x] ((L.items h).set ((L.items h).idxOf y) x) ∧
      Same m (listItemReplace m y x) y := by
  obtain ⟨left, right, hl, hleft, hring⟩ := exists_place hm hh hy
  have hfresh : x ∉ h :: (left ++ y :: right) := hl ▸ hx h hh
  have hitems : (L.items h).set ((L.items h).idxOf y) x = left ++ x :: right := by
    rw [hl, List.idxOf_append_of_notMem hleft]
    simp
  rw [hitems, listItemReplace_eq]
  refine ⟨hm.turned hh ?_ ?_ (hring.replace hfresh) ?_, ?_⟩
  · intro z hz
    rw [hl]
    simp only [List.mem_append, List.mem_cons] at hz ⊢
    tauto
  · intro z hz
    exact List.mem_singleton.mp hz ▸ hx
  · intro z hz
    apply hring.replace_other
    intro hin
    apply hz
    rw [hl]
    simp only [List.mem_append, List.mem_cons, List.not_mem_nil] at hin ⊢
    tauto
  · apply hring.replace_other
    intro hin
    rcases List.mem_cons.mp hin with rfl | hin
    · exact hfresh (by simp)
    · exact hring.not_mem_rest hin

/-- **A removal.** The item is unlinked then, with the links it had. -/
theorem turned_listItemRemove (hm : m.Represents L) (hh : h ∈ L.heads) (hx : x ∈ L.items h) :
    Turned L m (listItemRemove m x) h [] ((L.items h).erase x) ∧
      Same m (listItemRemove m x) x := by
  obtain ⟨left, right, hl, hleft, hring⟩ := exists_place hm hh hx
  have hitems : (L.items h).erase x = left ++ right := by
    rw [hl, List.erase_append_right _ hleft, List.erase_cons_head]
  rw [hitems, listItemRemove_eq]
  refine ⟨hm.turned hh ?_ ?_ hring.remove ?_, hring.remove_self⟩
  · intro z hz
    rw [hl]
    simp only [List.mem_append, List.mem_cons] at hz ⊢
    tauto
  · intro z hz
    exact absurd hz List.not_mem_nil
  · intro z hz
    apply hring.remove_other
    intro hin
    apply hz
    rw [hl]
    simp only [List.nil_append, List.mem_append, List.mem_cons] at hin ⊢
    tauto

omit [DecidableEq α] in
/-- **The last item of a ring** can be told by its own links, which then lead to the head. -/
theorem alone_iff (hm : m.Represents L) (hh : h ∈ L.heads) (hx : x ∈ L.items h) :
    (listItemGetPrev m x = listItemGetNext m x ↔ L.items h = [x]) ∧
      (L.items h = [x] → listItemGetPrev m x = h ∧ listItemGetNext m x = h) := by
  obtain ⟨left, right, hl, -, hring⟩ := exists_place hm hh hx
  refine ⟨?_, ?_⟩
  · calc m.prev x = m.next x
      _ ↔ left = [] ∧ right = [] := hring.alone_iff
      _ ↔ L.items h = [x] := by simp [hl, List.append_eq_singleton_iff]
  · intro hone
    have hring' : m.Ring h [x] := hone ▸ hm h hh
    exact ⟨hring'.1.2.1, hring'.1.2.2.1⟩

end Turned

/-! ## The loops -/

/-- What the body has done to the links of these nodes, called for an item: it has removed it, or
has not, and touched no other of them. The item's own links it may have overwritten. -/
def RemovesOnly (nodes : List α) (m m' : Links α) (item : α) : Prop :=
  (∀ y ∈ nodes, y ≠ item → Same m m' y) ∨ ∀ y ∈ nodes, y ≠ item → Same (listItemRemove m item) m' y

section Loops

variable {h x : α} {l nodes : List α} {links : σ → Links α} {body : σ → α → σ} {s : σ}

/-- What the body has done to the links looks the same read backwards: a removal is one both
ways. -/
theorem RemovesOnly.flip {m m' : Links α} (hr : RemovesOnly nodes m m' x) :
    RemovesOnly nodes m.flip m'.flip x := by
  apply hr.imp
  · intro hsame y hy hyx
    exact (hsame y hy hyx).symm
  · intro hsame y hy hyx
    rw [listItemRemove_eq, remove_flip]
    exact (hsame y hy hyx).symm

/-- A body that has touched nothing else among some nodes has touched nothing else among fewer. -/
theorem RemovesOnly.mono {m m' : Links α} (hr : RemovesOnly nodes m m' x)
    (hsub : ∀ y ∈ l, y ∈ nodes) : RemovesOnly l m m' x := by
  apply hr.imp
  · intro hsame y hy hyx
    exact hsame y (hsub y hy) hyx
  · intro hsame y hy hyx
    exact hsame y (hsub y hy) hyx

/-- What lies ahead of the next item after the body, which has removed the item it was given at
most, is what lay ahead of it before. -/
theorem RemovesOnly.ahead {m m' : Links α} {y : α} (hr : RemovesOnly nodes m m' x)
    (ha : m.Ahead x (y :: l) h) (hnodes : ∀ z ∈ h :: y :: l, z ∈ nodes) : m'.Ahead y l h := by
  have hne : ∀ z ∈ h :: y :: l, z ≠ x := by
    have hnodup : (x :: h :: y :: l).Nodup := (List.Perm.swap x h (y :: l)).nodup ha.nodup
    rintro z hz rfl
    exact (List.nodup_cons.mp hnodup).1 hz
  rcases hr with hsame | hsame
  · exact ha.keep fun z hz => hsame z (hnodes z hz) (hne z hz)
  · exact ha.remove fun z hz => hsame z (hnodes z hz) (hne z hz)

/-- **The loop from an item on** is the fold over it and the items ahead of it: the next item is
read before the body is called, and what the body does behind it does not matter. -/
theorem forEachListItemFrom_eq {fuel : ℕ} (ha : (links s).Ahead x l h)
    (hnodes : ∀ z ∈ h :: x :: l, z ∈ nodes)
    (hbody : ∀ before item after, x :: l = before ++ item :: after →
      RemovesOnly nodes (links (before.foldl body s))
      (links (body (before.foldl body s) item)) item)
    (hfuel : l.length + 1 < fuel) :
    forEachListItemFrom (fun s => (links s).next) body h fuel s x ((links s).next x) =
      some ((x :: l).foldl body s) := by
  induction l generalizing s x fuel with
  | nil =>
      obtain ⟨fuel, rfl⟩ : ∃ k, fuel = k + 2 := ⟨fuel - 2, by simp at hfuel; omega⟩
      have hx : x ≠ h := fun he => (List.nodup_cons.mp ha.nodup).1 (by simp [he])
      have hnext : (links s).next x = h := ha.path.1
      simp [forEachListItemFrom, hx, hnext]
  | cons y l ih =>
      obtain ⟨fuel, rfl⟩ : ∃ k, fuel = k + 1 := ⟨fuel - 1, by simp at hfuel; omega⟩
      have hx : x ≠ h := fun he => (List.nodup_cons.mp ha.nodup).1 (by simp [he])
      have hnext : (links s).next x = y := ha.path.1
      have hstep := hbody [] x (y :: l) rfl
      have hahead : (links (body s x)).Ahead y l h := hstep.ahead ha fun z hz => hnodes z (by
        simp only [List.mem_cons] at hz ⊢
        tauto)
      have hrest := ih hahead (fun z hz => hnodes z (by
        simp only [List.mem_cons] at hz ⊢
        tauto)) (fun before item after hsplit =>
          hbody (x :: before) item after (by rw [hsplit]; rfl))
        (by simpa using hfuel)
      simpa [forEachListItemFrom, hx, hnext] using hrest

/-- **`FOR_EACH_LIST_ITEM_SAFE`** calls its body for the items there were at the start, in order. -/
theorem forEachListItemSafe_eq {fuel : ℕ} (hr : (links s).Ring h l)
    (hbody : ∀ before item after, l = before ++ item :: after → RemovesOnly (h :: l)
      (links (before.foldl body s)) (links (body (before.foldl body s) item)) item)
    (hfuel : l.length < fuel) :
    forEachListItemSafe links body fuel s h = some (l.foldl body s) := by
  rcases l with _ | ⟨x, l⟩
  · obtain ⟨fuel, rfl⟩ : ∃ k, fuel = k + 1 := ⟨fuel - 1, by simp at hfuel; omega⟩
    have hnext : (links s).next h = h := hr.1.1
    simp [forEachListItemSafe, forEachListItemFrom, hnext]
  · have hnext : (links s).next h = x := hr.1.1
    unfold forEachListItemSafe
    rw [hnext]
    exact forEachListItemFrom_eq hr.ahead (fun z hz => hz) hbody (by simpa using hfuel)

/-- **`FOR_EACH_LIST_ITEM_SAFE_REVERSE`** executes its body for the items in reverse, once for each,
even if the body removes the item it is given. -/
theorem forEachListItemSafeReverse_eq {fuel : ℕ} (hr : (links s).Ring h l)
    (hbody : ∀ before item after, l.reverse = before ++ item :: after → RemovesOnly (h :: l)
      (links (before.foldl body s)) (links (body (before.foldl body s) item)) item)
    (hfuel : l.length < fuel) :
    forEachListItemSafeReverse links body fuel s h = some (l.reverse.foldl body s) := by
  -- it is the other loop, over the links read backwards
  change forEachListItemSafe (fun s => (links s).flip) body fuel s h = _
  refine forEachListItemSafe_eq hr.flip ?_ (by simpa using hfuel)
  intro before item after hsplit
  apply (hbody before item after hsplit).flip.mono
  intro y hy
  simpa using hy

end Loops

/-! ## The refinement -/

/-- **The intrusive list refines the list.** In a memory of any rings, an operation on one of them
makes it the ring of the list that the operation stands for; all other rings and all unlinked items
are as before, and a replaced or removed item has the links it had. The loops call their body for
each item once. Whether an item is alone in its ring can be read from its own links, also when it
has just been inserted and when it has been removed. -/
theorem list_operations_refine {m : Links α} {L : ItemLists α} (hm : m.Represents L) {h : α}
    (hh : h ∈ L.heads) :
    (∀ x, L.Unlinked x →
      Turned L m (listInsertBack m h x) h [x] (L.items h ++ [x]) ∧
      (listItemGetPrev (listInsertBack m h x) x = listItemGetNext (listInsertBack m h x) x ↔
        L.items h = []) ∧
      Turned L m (listInsertFront m h x) h [x] (x :: L.items h) ∧
      (∀ y ∈ h :: L.items h,
        Turned L m (listItemInsertBefore m x y) h [x]
          ((L.items h).insertIdx ((L.items h).idxOf y) x) ∧
        Turned L m (listItemInsertAfter m x y) h [x]
          ((L.items h).insertIdx ((h :: L.items h).idxOf y) x)) ∧
      ∀ y ∈ L.items h,
        Turned L m (listItemReplace m y x) h [x] ((L.items h).set ((L.items h).idxOf y) x) ∧
        Same m (listItemReplace m y x) y) ∧
    (∀ x ∈ L.items h,
      Turned L m (listItemRemove m x) h [] ((L.items h).erase x) ∧
      Same m (listItemRemove m x) x ∧
      ∀ m' ∈ [m, listItemRemove m x],
        (listItemGetPrev m' x = listItemGetNext m' x ↔ L.items h = [x]) ∧
        (L.items h = [x] → listItemGetPrev m' x = h ∧ listItemGetNext m' x = h)) ∧
    (listIsEmpty m h ↔ L.items h = []) ∧
    ∀ (links : σ → Links α) (body : σ → α → σ) (s : σ) (fuel : ℕ), links s = m →
      (L.items h).length < fuel →
      ((∀ before item after, L.items h = before ++ item :: after → RemovesOnly (h :: L.items h)
          (links (before.foldl body s)) (links (body (before.foldl body s) item)) item) →
        forEachListItemSafe links body fuel s h = some ((L.items h).foldl body s)) ∧
      ((∀ before item after, (L.items h).reverse = before ++ item :: after →
          RemovesOnly (h :: L.items h) (links (before.foldl body s))
            (links (body (before.foldl body s) item)) item) →
        forEachListItemSafeReverse links body fuel s h =
          some ((L.items h).reverse.foldl body s)) := by
  have hring := hm h hh
  refine ⟨?_, ?_, ?_, ?_⟩
  · intro x hx
    have hback := turned_listInsertBack hm hh hx
    refine ⟨hback, ?_, turned_listInsertFront hm hh hx, ?_, ?_⟩
    · have hinserted : (listInsertBack m h x).Ring h (L.items h ++ [x]) :=
        hring.insertBack (hx h hh)
      exact hinserted.alone_iff.trans (by simp)
    · intro y hy
      exact ⟨turned_listItemInsertBefore hm hh hx hy, turned_listItemInsertAfter hm hh hx hy⟩
    · intro y hy
      exact turned_listItemReplace hm hh hx hy
  · intro x hx
    obtain ⟨hturned, hsame⟩ := turned_listItemRemove hm hh hx
    have halone := alone_iff hm hh hx
    refine ⟨hturned, hsame, ?_⟩
    intro m' hm'
    rcases List.mem_pair.mp hm' with rfl | rfl
    · exact halone
    · unfold listItemGetPrev listItemGetNext at halone ⊢
      rw [hsame.1, hsame.2]
      exact halone
  · exact (listIsEmpty_iff m h).trans hring.isEmpty_iff
  · rintro links body s fuel rfl hfuel
    refine ⟨?_, ?_⟩
    · intro hbody
      exact forEachListItemSafe_eq hring hbody hfuel
    · intro hbody
      exact forEachListItemSafeReverse_eq hring hbody hfuel

/-- Two heads, one with two items. -/
def sampleLists : ItemLists ℕ where
  heads := {0, 3}
  items := fun h => if h = 0 then [1, 2] else []
  nodup := by
    rintro h (rfl | rfl)
    · decide
    · decide
  apart := by
    rintro h (rfl | rfl) k (rfl | rfl) hne
    · exact absurd rfl hne
    · exact List.disjoint_right.mpr (by decide)
    · exact List.disjoint_left.mpr (by decide)
    · exact absurd rfl hne

/-- The memory that holds them, made by the operations. -/
def sampleLinks : Links ℕ :=
  let m := listInitialize (listInitialize ⟨id, id⟩ 0) 3
  listInsertBack (listInsertFront m 0 1) 0 2

/-- A memory with two lists, and one operation of each kind on the first of them, each with the list
that it leads to; and the loop backwards, whose body removes every item. -/
theorem list_operations_refine_sample :
    sampleLinks.Represents sampleLists ∧
    Turned sampleLists sampleLinks (listInsertBack sampleLinks 0 4) 0 [4] [1, 2, 4] ∧
    Turned sampleLists sampleLinks (listItemInsertAfter sampleLinks 4 1) 0 [4] [1, 4, 2] ∧
    Turned sampleLists sampleLinks (listItemReplace sampleLinks 1 4) 0 [4] [4, 2] ∧
    Turned sampleLists sampleLinks (listItemRemove sampleLinks 1) 0 [] [2] ∧
    (forEachListItemSafeReverse Prod.fst
      (fun (s : Links ℕ × List ℕ) item => (listItemRemove s.1 item, s.2 ++ [item])) 3
      (sampleLinks, []) 0).map Prod.snd = some [2, 1] := by
  have hm : sampleLinks.Represents sampleLists := by
    rintro h (rfl | rfl)
    · exact ⟨⟨rfl, rfl, rfl, rfl, rfl, rfl⟩, by decide⟩
    · exact ⟨⟨rfl, rfl⟩, by decide⟩
  have hh : 0 ∈ sampleLists.heads := .inl rfl
  have hfour : sampleLists.Unlinked 4 := by
    rintro h (rfl | rfl)
    · decide
    · decide
  obtain ⟨hinsert, hremove, -, hloop⟩ :=
    @list_operations_refine ℕ (Links ℕ × List ℕ) _ _ _ hm 0 hh
  obtain ⟨hback, -, -, haround, hreplace⟩ := hinsert 4 hfour
  refine ⟨hm, hback, (haround 1 (by decide)).2, (hreplace 1 (by decide)).1,
    (hremove 1 (by decide)).1, ?_⟩
  have hreverse := (hloop Prod.fst (fun s item => (listItemRemove s.1 item, s.2 ++ [item]))
    (sampleLinks, []) 3 rfl (by decide)).2 fun _ _ _ _ => .inr fun _ _ _ => ⟨rfl, rfl⟩
  rw [hreverse]
  rfl

end Pixy.Store
