import Mathlib

/-!
# Memory, byte by byte

Words of eight bytes, the least significant first, and singly linked lists through words: the first
word of every item is the address of the next.

* `load_store` and `load_congr`: a word is what was last written there, and is seen through its
  bytes;
* `Chain`: the items that are met from an address until the null pointer;
* `Chain.congr`: a chain is seen through the words of its items.

Nothing here mentions the program.
-/

namespace Pixy.Found

/-- The contents of every address. -/
abbrev Bytes := ℕ → BitVec 8

namespace Bytes

/-- The number in some bytes, the least significant first. -/
def number (m : Bytes) : ℕ → ℕ → ℕ
  | _, 0 => 0
  | a, k + 1 => (m a).toNat + 256 * m.number (a + 1) k

/-- The word at an address. -/
def load (m : Bytes) (a : ℕ) : ℕ := m.number a 8

/-- Write a word. -/
def store (m : Bytes) (a v : ℕ) : Bytes :=
  fun x => if a ≤ x ∧ x < a + 8 then BitVec.ofNat 8 (v / 256 ^ (x - a)) else m x

/-- From an address, one word after the other, the items lead to the null pointer. -/
def Chain (m : Bytes) : ℕ → List ℕ → Prop
  | a, [] => a = 0
  | a, x :: l => a = x ∧ m.Chain (m.load x) l

variable {m m' : Bytes} {a b v : ℕ} {l : List ℕ}

/-- A number depends only on the bytes it is read from: memories that agree on these `k` bytes hold
the same number there. -/
theorem number_congr {k : ℕ} (h : ∀ x, a ≤ x → x < a + k → m' x = m x) :
    m'.number a k = m.number a k := by
  induction k generalizing a with
  | zero => rfl
  | succ k ih =>
      have hrest := ih (a := a + 1) fun x hx hx' => h x (by omega) (by omega)
      rw [number, number, h a le_rfl (by omega), hrest]

/-- **A word is seen through its bytes.** Two memories that agree on the eight bytes from an address
on load the same word there, whatever else they hold. -/
theorem load_congr (h : ∀ x, a ≤ x → x < a + 8 → m' x = m x) : m'.load a = m.load a :=
  number_congr h

/-- Bytes that are the digits of a number hold that number. -/
theorem number_digits {k : ℕ} (h : ∀ i, i < k → (m (a + i)).toNat = v / 256 ^ i % 256) :
    m.number a k = v % 256 ^ k := by
  induction k generalizing a v with
  | zero => simp [number, Nat.mod_one]
  | succ k ih =>
      have hfirst : (m a).toNat = v % 256 := by simpa using h 0 (by omega)
      have hrest : m.number (a + 1) k = v / 256 % 256 ^ k := by
        refine ih fun i hi => ?_
        have hdigit := h (i + 1) (by omega)
        rw [pow_succ', ← Nat.div_div_eq_div_mul] at hdigit
        rw [← hdigit]
        congr 2
        omega
      rw [number, hfirst, hrest, pow_succ', Nat.mod_mul]

/-- **A word is what was written.** A number that fits into eight bytes is loaded again from where
it has been stored; the bytes are its digits, and the digits give the number back. -/
theorem load_store (hv : v < 256 ^ 8) : (m.store a v).load a = v := by
  rw [load, number_digits (v := v), Nat.mod_eq_of_lt hv]
  intro i hi
  have hin : a ≤ a + i ∧ a + i < a + 8 := by omega
  rw [store, if_pos hin, BitVec.toNat_ofNat]
  simp

/-- A byte outside the word that is written keeps its value, so memory changes in these eight bytes
only. -/
theorem store_other {x : ℕ} (hx : x < a ∨ a + 8 ≤ x) : m.store a v x = m x := by
  refine if_neg ?_
  omega

/-- **A chain is seen through the words of its items**: memories that have the same first word in
each of its blocks hold the same chain. -/
theorem Chain.congr (h : m.Chain a l) (hsame : ∀ x ∈ l, m'.load x = m.load x) : m'.Chain a l := by
  induction l generalizing a with
  | nil => exact h
  | cons x l ih =>
      obtain ⟨rfl, hrest⟩ := h
      refine ⟨rfl, ?_⟩
      rw [hsame a List.mem_cons_self]
      exact ih hrest fun y hy => hsame y (List.mem_cons_of_mem a hy)

/-- The address that a chain begins with is that of its first block, or null if the chain has none.
-/
theorem Chain.first_eq (h : m.Chain a l) : a = l.headD 0 := by
  cases l with
  | nil => exact h
  | cons x l => exact h.1

end Bytes

end Pixy.Found
