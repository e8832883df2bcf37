import Mathlib.Algebra.GroupWithZero.Nat
import Mathlib.Data.BitVec
import Mathlib.Tactic.IntervalCases

/-!
# Machine values and the five-phase tick

`Byte` and `Word` are the simulator's 8- and 16-bit values, with the wrap-around arithmetic of
`uint8_t` and `uint16_t`.  A word is built from, and taken apart into, a high and a low byte.
-/

namespace Irata2

abbrev Byte := BitVec 8

abbrev Word := BitVec 16

namespace Word

def high (w : Word) : Byte := (w >>> 8).setWidth 8

def low (w : Word) : Byte := (w &&& 0xFF#16).setWidth 8

def ofBytes (high low : Byte) : Word := high.setWidth 16 <<< 8 ||| low.setWidth 16

theorem getLsbD_ofBytes (h l : Byte) (i : Nat) :
    (ofBytes h l).getLsbD i = if i < 8 then l.getLsbD i else h.getLsbD (i - 8) := by
  unfold ofBytes
  simp only [BitVec.getLsbD_or, BitVec.getLsbD_shiftLeft, BitVec.getLsbD_setWidth]
  by_cases hi : i < 8
  · simp [hi, show i < 16 by omega]
  · by_cases hw : i < 16
    · simp [hi, hw, BitVec.getLsbD_of_ge l i (by omega), show i - 8 < 16 by omega]
    · simp [hi, hw, BitVec.getLsbD_of_ge h (i - 8) (by omega)]

private theorem getLsbD_byteMask (i : Nat) (hi : i < 8) : (0xFF#16).getLsbD i = true := by
  interval_cases i <;> rfl

theorem getLsbD_low (w : Word) (i : Nat) (hi : i < 8) : (low w).getLsbD i = w.getLsbD i := by
  simp only [low, BitVec.getLsbD_setWidth, BitVec.getLsbD_and, hi, getLsbD_byteMask i hi]
  simp

theorem low_ofBytes (h l : Byte) : low (ofBytes h l) = l := by
  apply BitVec.eq_of_getLsbD_eq
  intro i hi
  rw [getLsbD_low _ i hi, getLsbD_ofBytes, if_pos hi]

theorem high_ofBytes (h l : Byte) : high (ofBytes h l) = h := by
  apply BitVec.eq_of_getLsbD_eq
  intro i hi
  simp only [high, BitVec.getLsbD_setWidth, BitVec.getLsbD_ushiftRight, getLsbD_ofBytes, hi]
  simp

theorem ofBytes_high_low (w : Word) : ofBytes (high w) (low w) = w := by
  apply BitVec.eq_of_getLsbD_eq
  intro i hi
  rw [getLsbD_ofBytes]
  by_cases h8 : i < 8
  · rw [if_pos h8, getLsbD_low w i h8]
  · simp [h8, high, show i - 8 < 8 by omega, show 8 + (i - 8) = i by omega]

theorem toNat_ofBytes (h l : Byte) : (ofBytes h l).toNat = h.toNat * 256 + l.toNat := by
  have hl : l.toNat < 2 ^ 8 := l.isLt
  have hh : h.toNat < 2 ^ 8 := h.isLt
  unfold ofBytes
  rw [BitVec.toNat_or, BitVec.toNat_shiftLeft, BitVec.toNat_setWidth, BitVec.toNat_setWidth,
    Nat.mod_eq_of_lt (by omega : h.toNat < 2 ^ 16), Nat.mod_eq_of_lt (by omega : l.toNat < 2 ^ 16),
    Nat.shiftLeft_eq, Nat.mod_eq_of_lt (by omega : h.toNat * 2 ^ 8 < 2 ^ 16),
    Nat.mul_comm, ← Nat.two_pow_add_eq_or_of_lt hl, Nat.mul_comm]

end Word

/-- The four characters `IRTA` in front of a cartridge file. -/
def cartridgeMagic : Vector Byte 4 := #v[0x49, 0x52, 0x54, 0x41]

/-- The phases of one tick, in order; `none` is the time between ticks. -/
inductive TickPhase
  | none
  | control
  | write
  | read
  | process
  | clear
  deriving DecidableEq, Repr

namespace TickPhase

/-- The enumerator's position, which the comparison operators of the enumeration use. -/
def toNat : TickPhase → Nat
  | none => 0
  | control => 1
  | write => 2
  | read => 3
  | process => 4
  | clear => 5

def name : TickPhase → String
  | none => "None"
  | control => "Control"
  | write => "Write"
  | read => "Read"
  | process => "Process"
  | clear => "Clear"

end TickPhase

end Irata2
