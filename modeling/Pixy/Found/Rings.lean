import Pixy.Found.Ring

/-!
# A memory of rings

What rings are for is to keep lists: each head has one, and no node is in two places. `ItemLists` is
that family of lists, with what keeps them apart as fields; `Represents m L` says that the memory
holds them as rings.

`Represents.turned` is the rule for an operation: where it turns the ring of one head into that of a
new list of old and unlinked items, and touches nothing else, then the memory holds the family with
that list changed, and all other rings and all unlinked nodes are as before (`Turned`).

Nothing here mentions the program.
-/

namespace Pixy.Found

variable {α : Type*}

/-- **A family of lists**, one for each head, that have no node in common. -/
structure ItemLists (α : Type*) where
  /-- The heads. -/
  heads : Set α
  /-- The items of a head. -/
  items : α → List α
  nodup : ∀ h ∈ heads, (h :: items h).Nodup
  apart : ∀ h ∈ heads, ∀ k ∈ heads, h ≠ k → List.Disjoint (h :: items h) (k :: items k)

namespace ItemLists

/-- The node is neither a head nor an item. -/
def Unlinked (L : ItemLists α) (x : α) : Prop := ∀ h ∈ L.heads, x ∉ h :: L.items h

variable [DecidableEq α] (L : ItemLists α) {h : α} {l : List α}

/-- The list of one head is changed; new items come from outside. -/
def setItems (h : α) (l : List α) (hnodup : (h :: l).Nodup)
    (hl : ∀ x ∈ l, x ∈ L.items h ∨ L.Unlinked x) : ItemLists α where
  heads := L.heads
  items := Function.update L.items h l
  nodup := by
    intro k hk
    by_cases hkh : k = h
    · rw [hkh, Function.update_self]
      exact hnodup
    · rw [Function.update_of_ne hkh]
      exact L.nodup k hk
  apart := by
    have hnew : ∀ k ∈ L.heads, h ∈ L.heads → k ≠ h → List.Disjoint (h :: l) (k :: L.items k) := by
      intro k hk hh hkh x hx hxk
      have hold := L.apart h hh k hk (Ne.symm hkh)
      rcases List.mem_cons.mp hx with rfl | hx
      · exact hold List.mem_cons_self hxk
      · rcases hl x hx with hin | hout
        · exact hold (List.mem_cons_of_mem h hin) hxk
        · exact hout k hk hxk
    intro j hj k hk hne
    by_cases hjh : j = h
    · have hkh : k ≠ h := fun he => hne (hjh.trans he.symm)
      rw [hjh, Function.update_self, Function.update_of_ne hkh]
      exact hnew k hk (hjh ▸ hj) hkh
    · rw [Function.update_of_ne hjh]
      by_cases hkh : k = h
      · rw [hkh, Function.update_self]
        exact List.disjoint_symm (hnew j hj (hkh ▸ hk) hjh)
      · rw [Function.update_of_ne hkh]
        exact L.apart j hj k hk hne

end ItemLists

namespace Links

/-- **The memory holds the lists as rings.** -/
def Represents (m : Links α) (L : ItemLists α) : Prop := ∀ h ∈ L.heads, m.Ring h (L.items h)

/-- The links of a node are the same in two memories. -/
def Same (m m' : Links α) (x : α) : Prop := m'.prev x = m.prev x ∧ m'.next x = m.next x

variable {m m' : Links α} {L : ItemLists α} {h x : α} {l new : List α}

/-- **One list has been changed**, with items from `new`: the memory holds the family with that
list, and all other rings and all unlinked nodes but those of `new` are as before. -/
structure Turned [DecidableEq α] (L : ItemLists α) (m m' : Links α) (h : α) (new l : List α) :
    Prop where
  represents : ∃ L' : ItemLists α, L'.heads = L.heads ∧ L'.items = Function.update L.items h l ∧
    m'.Represents L'
  others : ∀ k ∈ L.heads, k ≠ h → ∀ x ∈ k :: L.items k, Same m m' x
  unlinked : ∀ x, L.Unlinked x → x ∉ new → Same m m' x

variable [DecidableEq α]

/-- **The rule for an operation** on the ring of one head. -/
theorem Represents.turned (hm : m.Represents L) (hh : h ∈ L.heads)
    (hl : ∀ x ∈ l, x ∈ L.items h ∨ x ∈ new) (hnew : ∀ x ∈ new, L.Unlinked x)
    (hring : m'.Ring h l) (hother : ∀ x, x ∉ new ++ h :: L.items h → Same m m' x) :
    Turned L m m' h new l := by
  have hapart : ∀ k ∈ L.heads, k ≠ h → ∀ x ∈ k :: L.items k, Same m m' x := by
    intro k hk hkh x hx
    apply hother
    intro hin
    rcases List.mem_append.mp hin with hin | hin
    · exact hnew x hin k hk hx
    · exact L.apart h hh k hk (Ne.symm hkh) hin hx
  have hl' : ∀ x ∈ l, x ∈ L.items h ∨ L.Unlinked x := fun x hx => (hl x hx).imp_right (hnew x)
  refine ⟨⟨L.setItems h l hring.2 hl', rfl, rfl, ?_⟩, hapart, ?_⟩
  · intro k hk
    change m'.Ring k (Function.update L.items h l k)
    by_cases hkh : k = h
    · rw [hkh, Function.update_self]
      exact hring
    · rw [Function.update_of_ne hkh]
      exact (hm k hk).congr (hapart k hk hkh)
  · intro x hx hxnew
    apply hother
    intro hin
    rcases List.mem_append.mp hin with hin | hin
    · exact hxnew hin
    · exact hx h hh hin

end Links

end Pixy.Found
