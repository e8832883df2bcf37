import Mathlib.Data.Nat.Digits.Defs
import Mathlib.Tactic.Linarith
import Mathlib.Tactic.Ring

/-!
# Carry chains

A number is worked on digit by digit, with a carry from each digit to the next.  Addition,
subtraction and the shifts by one place are all chains of one shape, which differ in the numbers
on the two sides of the equation for a digit.
-/

namespace Irata2.Library

/-- At each digit, `x` and the carry out make up `y` and the carry in. -/
inductive CarryChain (base : Nat) : Nat → List Nat → List Nat → Nat → Prop
  | nil (c : Nat) : CarryChain base c [] [] c
  | cons {c c' c'' x y : Nat} {xs ys : List Nat} (h : x + base * c' = y + c)
      (htail : CarryChain base c' xs ys c'') : CarryChain base c (x :: xs) (y :: ys) c''

namespace CarryChain

variable {base c c' c'' : Nat} {xs ys xs' ys' : List Nat}

theorem single {x y : Nat} (h : x + base * c' = y + c) : CarryChain base c [x] [y] c' :=
  .cons h (.nil c')

theorem append (h : CarryChain base c xs ys c') (hmore : CarryChain base c' xs' ys' c'') :
    CarryChain base c (xs ++ xs') (ys ++ ys') c'' := by
  induction h with
  | nil => exact hmore
  | cons h _ ih => exact .cons h (ih hmore)

/-- The equation of a chain is that of one digit, to the base of the whole number. -/
theorem ofDigits_eq (h : CarryChain base c xs ys c') :
    Nat.ofDigits base xs + base ^ xs.length * c' = Nat.ofDigits base ys + c := by
  induction h with
  | nil c => simp
  | @cons c c' c'' x y xs ys h _ ih =>
      rw [Nat.ofDigits_cons, Nat.ofDigits_cons, List.length_cons, pow_succ]
      -- the tail's equation counts `base` times
      have htail := congrArg (base * ·) ih
      simp only [Nat.mul_add] at htail
      have hpow : base ^ xs.length * base * c'' = base * (base ^ xs.length * c'') := by
        ring
      rw [hpow]
      omega

end CarryChain

/-- The quotient and the remainder of a number that a carry splits. -/
theorem eq_mod_of_carry {r m v : Nat} {c : Bool} (hr : r < m) (h : r + m * c.toNat = v) :
    r = v % m ∧ (c = true ↔ m ≤ v) := by
  cases c with
  | false =>
      rw [Bool.toNat_false, Nat.mul_zero, Nat.add_zero] at h
      subst h
      exact ⟨(Nat.mod_eq_of_lt hr).symm, fun hc => absurd hc Bool.false_ne_true,
        fun hle => absurd hr (Nat.not_lt.mpr hle)⟩
  | true =>
      rw [Bool.toNat_true, Nat.mul_one] at h
      subst h
      rw [Nat.add_mod_right, Nat.mod_eq_of_lt hr]
      exact ⟨rfl, fun _ => Nat.le_add_left m r, fun _ => rfl⟩

/-! ## Signed numbers -/

/-- A number of two's complement digits is representable in the range of its base. -/
def Representable (base : Nat) (v : Int) : Prop := -(base : Int) ≤ 2 * v ∧ 2 * v < base

instance (base : Nat) (v : Int) : Decidable (Representable base v) :=
  inferInstanceAs (Decidable (_ ∧ _))

/-- The low digits do not matter to the range of a number: its top digit decides. -/
theorem representable_low_add {base low : Nat} {m : Nat} (hlow : low < m) (top : Int)
    (heven : 2 ∣ base) :
    Representable (m * base) (low + m * top) ↔ Representable base top := by
  rcases heven with ⟨half, rfl⟩
  have hm : (0 : Int) < m := by omega
  have hl : (low : Int) < m := by omega
  have hl0 : (0 : Int) ≤ low := Int.natCast_nonneg low
  unfold Representable
  push_cast
  constructor
  · rintro ⟨hlo, hhi⟩
    constructor
    · -- one less at the top would lose a whole `m`
      by_contra hneg
      have htop : top + 1 ≤ -half := by omega
      have := mul_le_mul_of_nonneg_left htop hm.le
      nlinarith
    · by_contra hneg
      have htop : (half : Int) ≤ top := by omega
      have := mul_le_mul_of_nonneg_left htop hm.le
      nlinarith
  · rintro ⟨hlo, hhi⟩
    have h₁ := mul_le_mul_of_nonneg_left (show -(half : Int) ≤ top by omega) hm.le
    have h₂ := mul_le_mul_of_nonneg_left (show top + 1 ≤ (half : Int) by omega) hm.le
    constructor <;> nlinarith

end Irata2.Library
