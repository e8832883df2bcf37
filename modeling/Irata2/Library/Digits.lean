import Mathlib.Data.List.Basic
import Mathlib.Tactic.IntervalCases

/-!
# Digits

Numbers written with the digits of a base up to sixteen, and read back digit by digit.
-/

namespace Irata2.Library.Digits

/-- The value of a digit, in either case of the letters. -/
def digit (ch : Char) : Option Nat :=
  if '0' ≤ ch ∧ ch ≤ '9' then some (ch.toNat - '0'.toNat)
  else if 'a' ≤ ch ∧ ch ≤ 'f' then some (10 + (ch.toNat - 'a'.toNat))
  else if 'A' ≤ ch ∧ ch ≤ 'F' then some (10 + (ch.toNat - 'A'.toNat))
  else none

/-- The number that a run of digits stands for. -/
def value (b : Nat) (text : List Char) : Nat :=
  text.foldl (fun v ch => b * v + (digit ch).getD 0) 0

theorem digit_digitChar {d : Nat} (hd : d < 16) : digit d.digitChar = some d := by
  interval_cases d <;> rfl

theorem digit_toUpper_digitChar {d : Nat} (hd : d < 16) :
    digit d.digitChar.toUpper = some d := by
  interval_cases d <;> rfl

theorem value_append_singleton (b : Nat) (text : List Char) (ch : Char) :
    value b (text ++ [ch]) = b * value b text + (digit ch).getD 0 := by
  unfold value
  rw [List.foldl_append]
  rfl

/-- Every character of a written number is a digit of its base. -/
theorem exists_digit_of_mem {b n : Nat} (hb : 1 < b) {ch : Char} (h : ch ∈ Nat.toDigits b n) :
    ∃ d < b, ch = d.digitChar := by
  induction n using Nat.strongRecOn with
  | ind n ih =>
      by_cases hn : n < b
      · rw [Nat.toDigits_of_lt_base hn, List.mem_singleton] at h
        exact ⟨n, hn, h⟩
      · rw [Nat.toDigits_of_base_le hb (Nat.not_lt.mp hn), List.mem_append,
          List.mem_singleton] at h
        rcases h with h | h
        · exact ih (n / b) (Nat.div_lt_self (by omega) hb) h
        · exact ⟨n % b, Nat.mod_lt n (by omega), h⟩

/-- Reading a written number gives the number. -/
theorem value_toDigits {b : Nat} (hb : 1 < b) (hb' : b ≤ 16) (n : Nat) :
    value b (Nat.toDigits b n) = n := by
  induction n using Nat.strongRecOn with
  | ind n ih =>
      by_cases hn : n < b
      · rw [Nat.toDigits_of_lt_base hn]
        show b * 0 + (digit n.digitChar).getD 0 = n
        rw [digit_digitChar (by omega)]
        simp
      · have hmod := Nat.mod_lt n (show 0 < b by omega)
        rw [Nat.toDigits_of_base_le hb (Nat.not_lt.mp hn), value_append_singleton,
          ih (n / b) (Nat.div_lt_self (by omega) hb), digit_digitChar (by omega)]
        exact Nat.div_add_mod n b

end Irata2.Library.Digits
