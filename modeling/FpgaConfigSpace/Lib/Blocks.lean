import Mathlib.Algebra.Order.Group.Nat
import Mathlib.Data.Nat.Init

/-! # Rounding to blocks

    Storage that is handed out in blocks of `b` bytes: `roundUp b x` is the first
    block start at or behind `x`, and `x - x % b` the start of the block `x` is in. -/

namespace Blocks

/-- The least multiple of `b` that is not below `x`. -/
def roundUp (b x : Nat) : Nat := (x + (b - 1)) / b * b

/-- Rounding up gives a multiple of the block size, the first one that is not before the
    number. -/
theorem dvd_roundUp (b x : Nat) : b ∣ roundUp b x := Nat.dvd_mul_left b _

section

variable {b : Nat} (hb : 0 < b)

include hb

theorem roundUp_lt (x : Nat) : roundUp b x < x + b := by
  have hdiv := Nat.div_mul_le_self (x + (b - 1)) b
  rw [roundUp]
  omega

theorem le_roundUp (x : Nat) : x ≤ roundUp b x := by
  have hmod := Nat.mod_add_div (x + (b - 1)) b
  have hlt := Nat.mod_lt (x + (b - 1)) hb
  rw [roundUp, Nat.mul_comm]
  omega

theorem roundUp_le {x m : Nat} (hm : b ∣ m) (h : x ≤ m) : roundUp b x ≤ m := by
  obtain ⟨k, rfl⟩ := hm
  obtain ⟨j, hj⟩ := dvd_roundUp b x
  have hlt := roundUp_lt hb x
  rw [hj] at hlt ⊢
  have hjk : j < k + 1 := by
    refine Nat.lt_of_mul_lt_mul_left (a := b) ?_
    rw [Nat.mul_add, Nat.mul_one]
    omega
  exact Nat.mul_le_mul_left b (Nat.lt_succ_iff.mp hjk)

/-- A multiple stays. -/
theorem roundUp_of_dvd {m : Nat} (hm : b ∣ m) : roundUp b m = m :=
  Nat.le_antisymm (roundUp_le hb hm (Nat.le_refl m)) (le_roundUp hb m)

/-- From a block start, rounding is relative. -/
theorem roundUp_add {m : Nat} (hm : b ∣ m) (x : Nat) : roundUp b (m + x) = m + roundUp b x := by
  obtain ⟨k, rfl⟩ := hm
  rw [roundUp, roundUp, Nat.add_assoc, Nat.mul_add_div hb, Nat.add_mul, Nat.mul_comm k b]

end

/-- The block of a position that is in a range from a block start on starts in the
    range as well. -/
theorem le_blockStart {b m p : Nat} (hm : b ∣ m) (h : m ≤ p) : m ≤ p - p % b := by
  obtain ⟨k, rfl⟩ := hm
  rcases Nat.eq_zero_or_pos b with rfl | hb
  · simp
  · have hmod := Nat.mod_add_div p b
    have hk : k ≤ p / b := (Nat.le_div_iff_mul_le hb).mpr (by rw [Nat.mul_comm]; exact h)
    have hle := Nat.mul_le_mul_left b hk
    omega

end Blocks
