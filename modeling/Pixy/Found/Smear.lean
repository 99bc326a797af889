import Mathlib

/-!
# Smearing the top bit

A number to which its own shifts by 1, 2, 4, … are added bit by bit ends with ones below its top
bit, so one more is a power of two.

* `testBit_smear`: what the first shifts have done to a bit;
* `smear_succ`: enough of them, and one more, make the least power of two that is greater.

Nothing here mentions the program.
-/

namespace Pixy.Found

/-- The first `steps` shifts. -/
def smear (number : ℕ) : ℕ → ℕ
  | 0 => number
  | steps + 1 => smear number steps ||| (smear number steps >>> 2 ^ steps)

variable {number i : ℕ}

/-- **A bit is set where one was set at it or shortly above it.** -/
theorem testBit_smear (steps : ℕ) :
    (smear number steps).testBit i = true ↔ ∃ d < 2 ^ steps, number.testBit (i + d) = true := by
  induction steps generalizing i with
  | zero => simp [smear]
  | succ steps ih =>
      rw [smear, Nat.testBit_or, Nat.testBit_shiftRight, Bool.or_eq_true, ih, ih]
      constructor
      · rintro (⟨d, hd, hbit⟩ | ⟨d, hd, hbit⟩)
        · exact ⟨d, by rw [pow_succ]; omega, hbit⟩
        · exact ⟨2 ^ steps + d, by rw [pow_succ]; omega, by rwa [← add_assoc, Nat.add_comm i]⟩
      · rintro ⟨d, hd, hbit⟩
        obtain hd' | hd' := lt_or_ge d (2 ^ steps)
        · exact .inl ⟨d, hd', hbit⟩
        · refine .inr ⟨d - 2 ^ steps, by rw [pow_succ] at hd; omega, ?_⟩
          rwa [show 2 ^ steps + i + (d - 2 ^ steps) = i + d by omega]

/-- A bit is set at or above a place, within the width smeared over, exactly if the number reaches
the power of two of that place. -/
theorem exists_testBit_iff {steps : ℕ} (h : number < 2 ^ 2 ^ steps) :
    (∃ d < 2 ^ steps, number.testBit (i + d) = true) ↔ 2 ^ i ≤ number := by
  constructor
  · rintro ⟨d, -, hbit⟩
    calc 2 ^ i ≤ 2 ^ (i + d) := Nat.pow_le_pow_right (by decide) (Nat.le_add_right i d)
      _ ≤ number := Nat.ge_two_pow_of_testBit hbit
  · intro hle
    obtain ⟨k, hk, hbit⟩ := Nat.exists_ge_and_testBit_of_ge_two_pow hle
    have hbound : k < 2 ^ steps :=
      (Nat.pow_lt_pow_iff_right (by decide)).mp ((Nat.ge_two_pow_of_testBit hbit).trans_lt h)
    exact ⟨k - i, by omega, by rwa [Nat.add_sub_cancel' hk]⟩

/-- **All ones below the top bit.** After enough doublings of the shift the number is one less than
a power of two, the least one that exceeds it. -/
theorem smear_eq (steps : ℕ) (h : number < 2 ^ 2 ^ steps) :
    smear number steps = 2 ^ Nat.clog 2 (number + 1) - 1 := by
  refine Nat.eq_of_testBit_eq fun i => ?_
  rw [Nat.testBit_two_pow_sub_one, Bool.eq_iff_iff, testBit_smear, exists_testBit_iff h,
    decide_eq_true_iff, Nat.lt_clog_iff_pow_lt (by decide), Nat.lt_succ_iff]

/-- **One more is the least power of two that is greater.** -/
theorem smear_succ (steps : ℕ) (h : number < 2 ^ 2 ^ steps) :
    smear number steps + 1 = 2 ^ Nat.clog 2 (number + 1) := by
  rw [smear_eq steps h]
  exact Nat.sub_add_cancel Nat.one_le_two_pow

end Pixy.Found
