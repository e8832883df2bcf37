import Mathlib.Tactic.Linarith
import Mathlib.Algebra.Order.Ring.Int

/-!
# Digital lines

A line that rises by `b` over a run of `a`, with `b ≤ a`, is drawn through the integer heights
nearest to it.  The height at each place follows from the one before by a comparison.
-/

namespace Irata2.Library

/-- `v` is `k * b / a`, rounded to the nearest integer, a half upwards. -/
structure Rounded (a b k v : Int) : Prop where
  lower : 2 * (v * a) - a ≤ 2 * (k * b)
  upper : 2 * (k * b) < 2 * (v * a) + a

namespace Rounded

variable {a b k v : Int}

theorem start (ha : 0 < a) : Rounded a b 0 0 := by
  constructor
  · rw [Int.zero_mul, Int.zero_mul]
    omega
  · rw [Int.zero_mul, Int.zero_mul]
    omega

/-- One place further, where the next height is reached. -/
theorem rise (h : Rounded a b k v) (hle : b ≤ a) (hstep : 2 * (v * a) + a ≤ 2 * (k * b) + 2 * b) :
    Rounded a b (k + 1) (v + 1) := by
  have hupper := h.upper
  constructor
  · rw [Int.add_mul, Int.add_mul]
    omega
  · rw [Int.add_mul, Int.add_mul]
    omega

/-- One place further, where it is not. -/
theorem stay (h : Rounded a b k v) (hb : 0 ≤ b) (hstep : 2 * (k * b) + 2 * b < 2 * (v * a) + a) :
    Rounded a b (k + 1) v := by
  have hlower := h.lower
  constructor
  · rw [Int.add_mul]
    omega
  · rw [Int.add_mul]
    omega

theorem nonneg (h : Rounded a b k v) (ha : 0 ≤ a) (hb : 0 ≤ b) (hk : 0 ≤ k) : 0 ≤ v := by
  have hupper := h.upper
  by_contra hneg
  have hva : v * a ≤ -1 * a := Int.mul_le_mul_of_nonneg_right (by omega) ha
  have hkb : 0 ≤ k * b := Int.mul_nonneg hk hb
  omega

theorem le (h : Rounded a b k v) (ha : 0 < a) (hb : 0 ≤ b) (hk : k ≤ a) : v ≤ b := by
  have hlower := h.lower
  by_contra hgt
  have hva : (b + 1) * a ≤ v * a := Int.mul_le_mul_of_nonneg_right (by omega) (by omega)
  have hkb : k * b ≤ a * b := Int.mul_le_mul_of_nonneg_right hk hb
  rw [Int.add_mul, Int.mul_comm b a] at hva
  omega

/-- The line ends at its full height. -/
theorem eq_of_end (h : Rounded a b a v) (ha : 0 < a) (hb : 0 ≤ b) : v = b := by
  have hle := h.le ha hb (Int.le_refl a)
  have hupper := h.upper
  by_contra hne
  have hva : v * a ≤ (b - 1) * a := Int.mul_le_mul_of_nonneg_right (by omega) (by omega)
  rw [Int.sub_mul, Int.mul_comm b a] at hva
  omega

end Rounded

end Irata2.Library
