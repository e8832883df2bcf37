import Irata2.Library.CarryChain
import Irata2.Sim.Destination

/-!
# Numbers of many bytes

The arithmetic unit works on a byte at a time, and the carry in the status register links the
bytes of a longer number.
-/

namespace Irata2.Sim

open Hdl Isa Library

/-- The number of a list of bytes, least significant first. -/
def littleEndian (bytes : List Byte) : Nat := Nat.ofDigits 256 (bytes.map BitVec.toNat)

theorem littleEndian_lt (bytes : List Byte) : littleEndian bytes < 256 ^ bytes.length := by
  have h : Nat.ofDigits 256 (bytes.map BitVec.toNat) < 256 ^ (bytes.map BitVec.toNat).length := by
    apply Nat.ofDigits_lt_base_pow_length (by decide)
    intro d hd
    rcases List.mem_map.mp hd with ⟨b, -, rfl⟩
    exact b.isLt
  rw [List.length_map] at h
  exact h

theorem littleEndian_concat (bytes : List Byte) (b : Byte) :
    littleEndian (bytes ++ [b]) = littleEndian bytes + 256 ^ bytes.length * b.toNat := by
  unfold littleEndian
  rw [List.map_append, Nat.ofDigits_append, List.length_map, List.map_singleton,
    Nat.ofDigits_singleton]

namespace Alu

/-! ## One byte -/

/-- The carry bit that an operation leaves. -/
def carryOut (opcode : Nat) (lhs rhs status : Byte) : Bool :=
  Status.value .carry (execute opcode lhs rhs 0 status).status

theorem carry_execute (opcode : Nat) (lhs rhs r status : Byte) :
    Status.value .carry (execute opcode lhs rhs r status).status =
      carryOut opcode lhs rhs status := by
  unfold carryOut
  rw [status_congr opcode lhs rhs r 0 status]

theorem toNat_ofBool (c : Bool) : (if c = true then 1 else 0 : Word).toNat = c.toNat := by
  cases c <;> rfl

theorem toNat_ofBool_byte (c : Bool) : (if c = true then 1 else 0 : Byte).toNat = c.toNat := by
  cases c <;> rfl

theorem toNat_ofNot (c : Bool) : (if c = true then 0 else 1 : Word).toNat = (!c).toNat := by
  cases c <;> rfl

theorem toNat_ofNot_byte (c : Bool) : (if c = true then 0 else 1 : Byte).toNat = (!c).toNat := by
  cases c <;> rfl

theorem toNat_add (lhs rhs status : Byte) :
    (Binary.add.value lhs rhs (Status.value .carry status)).toNat =
      (lhs.toNat + rhs.toNat + (Status.value .carry status).toNat) % 256 := by
  unfold Binary.value
  rw [BitVec.toNat_add, BitVec.toNat_add, toNat_ofBool_byte]
  omega

/-- The carry of an addition is the one out of eight bits. -/
theorem carryOut_add (lhs rhs status : Byte) :
    carryOut Binary.add.code lhs rhs status =
      decide (256 ≤ lhs.toNat + rhs.toNat + (Status.value .carry status).toNat) := by
  show Status.value .carry (Status.assign .overflow _ (Status.assign .carry (decide _) status)) = _
  rw [Status.value_assign, if_neg (by decide), Status.value_assign, if_pos rfl]
  have hl := lhs.isLt
  have hr := rhs.isLt
  have hc := Bool.toNat_le (Status.value .carry status)
  congr 1
  rw [gt_iff_lt, BitVec.lt_def, BitVec.toNat_add, BitVec.toNat_add, toNat_setWidth_byte,
    toNat_setWidth_byte, toNat_ofBool]
  show (255 < _) = _
  rw [eq_iff_iff]
  omega

/-- An addition is exact up to its carry. -/
theorem digit_add (lhs rhs status : Byte) :
    (Binary.add.value lhs rhs (Status.value .carry status)).toNat +
        256 * (carryOut Binary.add.code lhs rhs status).toNat =
      lhs.toNat + rhs.toNat + (Status.value .carry status).toNat := by
  have hl := lhs.isLt
  have hr := rhs.isLt
  have hc := Bool.toNat_le (Status.value .carry status)
  rw [toNat_add, carryOut_add]
  by_cases h : 256 ≤ lhs.toNat + rhs.toNat + (Status.value .carry status).toNat
  · rw [decide_eq_true h, Bool.toNat_true]
    omega
  · rw [decide_eq_false h, Bool.toNat_false]
    omega

theorem toNat_subtract (lhs rhs status : Byte) :
    (Binary.subtract.value lhs rhs (Status.value .carry status)).toNat =
      (lhs.toNat + 512 - (rhs.toNat + (!Status.value .carry status).toNat)) % 256 := by
  have hl := lhs.isLt
  have hr := rhs.isLt
  have hc := Bool.toNat_le (!Status.value .carry status)
  unfold Binary.value
  rw [BitVec.toNat_sub, BitVec.toNat_sub, toNat_ofNot_byte]
  omega

/-- The carry of a subtraction says that nothing was borrowed. -/
theorem carryOut_subtract (lhs rhs status : Byte) :
    carryOut Binary.subtract.code lhs rhs status =
      decide (rhs.toNat + (!Status.value .carry status).toNat ≤ lhs.toNat) := by
  show Status.value .carry (Status.assign .carry (decide _) status) = _
  rw [Status.value_assign, if_pos rfl]
  have hl := lhs.isLt
  have hr := rhs.isLt
  have hc := Bool.toNat_le (!Status.value .carry status)
  congr 1
  rw [ge_iff_le, BitVec.le_def, BitVec.toNat_add, toNat_setWidth_byte, toNat_setWidth_byte,
    toNat_ofNot, eq_iff_iff]
  omega

/-- A subtraction is exact up to its borrow. -/
theorem digit_subtract (lhs rhs status : Byte) :
    lhs.toNat + 256 * (!carryOut Binary.subtract.code lhs rhs status).toNat =
      (Binary.subtract.value lhs rhs (Status.value .carry status)).toNat + rhs.toNat +
        (!Status.value .carry status).toNat := by
  have hl := lhs.isLt
  have hr := rhs.isLt
  have hc := Bool.toNat_le (!Status.value .carry status)
  rw [toNat_subtract, carryOut_subtract]
  by_cases h : rhs.toNat + (!Status.value .carry status).toNat ≤ lhs.toNat
  · rw [decide_eq_true h, Bool.not_true, Bool.toNat_false]
    omega
  · rw [decide_eq_false h, Bool.not_false, Bool.toNat_true]
    omega

/-- The sides of a shift's equation: to the left the number doubles, to the right its half does. -/
theorem digit_shiftLeft (v w status : Byte) :
    (Unary.shiftLeft.value v (Status.value .carry status)).toNat +
        256 * (carryOut Unary.shiftLeft.code v w status).toNat = 2 * v.toNat + 0 := by
  have h : ∀ v : Byte, (v <<< 1).toNat + 256 * (v.setWidth 16 &&& 0x80 != (0 : Word)).toNat =
      2 * v.toNat + 0 := by
    decide
  have hcarry : carryOut Unary.shiftLeft.code v w status =
      (v.setWidth 16 &&& 0x80 != (0 : Word)) := by
    show Status.value .carry (Status.assign .overflow _ (Status.assign .carry _ status)) = _
    rw [Status.value_assign, if_neg (by decide), Status.value_assign, if_pos rfl]
  rw [hcarry]
  exact h v

theorem digit_rotateLeft (v w status : Byte) :
    (Unary.rotateLeft.value v (Status.value .carry status)).toNat +
        256 * (carryOut Unary.rotateLeft.code v w status).toNat =
      2 * v.toNat + (Status.value .carry status).toNat := by
  have h : ∀ (c : Bool) (v : Byte), (v <<< 1 ||| if c = true then 1 else 0).toNat +
      256 * (v.setWidth 16 &&& 0x80 != (0 : Word)).toNat = 2 * v.toNat + c.toNat := by
    decide
  have hcarry : carryOut Unary.rotateLeft.code v w status =
      (v.setWidth 16 &&& 0x80 != (0 : Word)) := by
    show Status.value .carry (Status.assign .overflow _ (Status.assign .carry _ status)) = _
    rw [Status.value_assign, if_neg (by decide), Status.value_assign, if_pos rfl]
  rw [hcarry]
  exact h _ v

theorem digit_shiftRight (v w status : Byte) :
    v.toNat + 256 * 0 = 2 * (Unary.shiftRight.value v (Status.value .carry status)).toNat +
      (carryOut Unary.shiftRight.code v w status).toNat := by
  have h : ∀ v : Byte, v.toNat + 256 * 0 =
      2 * (v >>> 1).toNat + (v.setWidth 16 &&& 0x01 != (0 : Word)).toNat := by
    decide
  have hcarry : carryOut Unary.shiftRight.code v w status =
      (v.setWidth 16 &&& 0x01 != (0 : Word)) := by
    show Status.value .carry (Status.assign .overflow _ (Status.assign .carry _ status)) = _
    rw [Status.value_assign, if_neg (by decide), Status.value_assign, if_pos rfl]
  rw [hcarry]
  exact h v

theorem digit_rotateRight (v w status : Byte) :
    v.toNat + 256 * (Status.value .carry status).toNat =
      2 * (Unary.rotateRight.value v (Status.value .carry status)).toNat +
        (carryOut Unary.rotateRight.code v w status).toNat := by
  have h : ∀ (c : Bool) (v : Byte), v.toNat + 256 * c.toNat =
      2 * (v >>> 1 ||| if c = true then 0x80 else 0).toNat +
        (v.setWidth 16 &&& 0x01 != (0 : Word)).toNat := by
    decide
  have hcarry : carryOut Unary.rotateRight.code v w status =
      (v.setWidth 16 &&& 0x01 != (0 : Word)) := by
    show Status.value .carry (Status.assign .overflow _ (Status.assign .carry _ status)) = _
    rw [Status.value_assign, if_neg (by decide), Status.value_assign, if_pos rfl]
  rw [hcarry]
  exact h _ v

/-! ## Chains of additions and subtractions -/

/-- The operation on the bytes of two operands in turn.  The result and the status register keep
what each byte leaves there. -/
def chain (opcode : Nat) : List (Byte × Byte) → Byte → Byte → List Byte × Byte
  | [], _, status => ([], status)
  | (lhs, rhs) :: rest, result, status =>
      let output := execute opcode lhs rhs result status
      let tail := chain opcode rest output.result output.status
      (output.result :: tail.1, tail.2)

theorem length_chain (opcode : Nat) (operands : List (Byte × Byte)) (result status : Byte) :
    (chain opcode operands result status).1.length = operands.length := by
  induction operands generalizing result status with
  | nil => rfl
  | cons operand rest ih =>
      unfold chain
      rw [List.length_cons, List.length_cons, ih]

/-- The carries of an addition. -/
theorem carryChain_add (operands : List (Byte × Byte)) (result status : Byte) :
    CarryChain 256 (Status.value .carry status).toNat
      ((chain Binary.add.code operands result status).1.map BitVec.toNat)
      (operands.map fun (lhs, rhs) => lhs.toNat + rhs.toNat)
      (Status.value .carry (chain Binary.add.code operands result status).2).toNat := by
  induction operands generalizing result status with
  | nil => exact .nil _
  | cons operand rest ih =>
      rcases operand with ⟨lhs, rhs⟩
      have hdigit := digit_add lhs rhs status
      rw [← result_binary .add lhs rhs result status,
        ← carry_execute Binary.add.code lhs rhs result status] at hdigit
      exact .cons hdigit (ih _ _)

/-- The borrows of a subtraction: the difference and the subtrahend make up the minuend. -/
theorem carryChain_subtract (operands : List (Byte × Byte)) (result status : Byte) :
    CarryChain 256 (!Status.value .carry status).toNat
      (operands.map fun (lhs, _) => lhs.toNat)
      (List.zipWith (fun (d : Byte) (operand : Byte × Byte) => d.toNat + operand.2.toNat)
        (chain Binary.subtract.code operands result status).1 operands)
      (!Status.value .carry (chain Binary.subtract.code operands result status).2).toNat := by
  induction operands generalizing result status with
  | nil => exact .nil _
  | cons operand rest ih =>
      rcases operand with ⟨lhs, rhs⟩
      have hdigit := digit_subtract lhs rhs status
      rw [← result_binary .subtract lhs rhs result status,
        ← carry_execute Binary.subtract.code lhs rhs result status] at hdigit
      exact .cons hdigit (ih _ _)

/-- Digits are added one by one. -/
theorem ofDigits_add {ds es : List Nat} (h : ds.length = es.length) :
    Nat.ofDigits 256 (List.zipWith (· + ·) ds es) = Nat.ofDigits 256 ds + Nat.ofDigits 256 es :=
  (Nat.ofDigits_add_ofDigits_eq_ofDigits_zipWith_of_length_eq h).symm

/-- The equation of an addition. -/
theorem add_of_carryChain {operands : List (Byte × Byte)} {bytes : List Byte} {c c' : Bool}
    (h : CarryChain 256 c.toNat (bytes.map BitVec.toNat)
      (operands.map fun (lhs, rhs) => lhs.toNat + rhs.toNat) c'.toNat)
    (hlength : bytes.length = operands.length) :
    littleEndian bytes + 256 ^ operands.length * c'.toNat =
      littleEndian (operands.map Prod.fst) + littleEndian (operands.map Prod.snd) + c.toNat := by
  have hdigits := h.ofDigits_eq
  have hsum : operands.map (fun (lhs, rhs) => lhs.toNat + rhs.toNat) =
      List.zipWith (· + ·) ((operands.map Prod.fst).map BitVec.toNat)
        ((operands.map Prod.snd).map BitVec.toNat) := by
    simp [List.zipWith_map, List.zipWith_self]
  rw [hsum, ofDigits_add (by simp), List.length_map, hlength] at hdigits
  exact hdigits

/-- The equation of a subtraction. -/
theorem subtract_of_carryChain {operands : List (Byte × Byte)} {bytes : List Byte} {c c' : Bool}
    (h : CarryChain 256 c.toNat (operands.map fun (lhs, _) => lhs.toNat)
      (List.zipWith (fun (d : Byte) (operand : Byte × Byte) => d.toNat + operand.2.toNat) bytes
        operands) c'.toNat)
    (hlength : bytes.length = operands.length) :
    littleEndian (operands.map Prod.fst) + 256 ^ operands.length * c'.toNat =
      littleEndian bytes + littleEndian (operands.map Prod.snd) + c.toNat := by
  have hdigits := h.ofDigits_eq
  have hsum : List.zipWith (fun (d : Byte) (operand : Byte × Byte) => d.toNat + operand.2.toNat)
        bytes operands =
      List.zipWith (· + ·) (bytes.map BitVec.toNat)
        ((operands.map Prod.snd).map BitVec.toNat) := by
    simp [List.zipWith_map]
  have hlhs : operands.map (fun (lhs, _) => lhs.toNat) =
      (operands.map Prod.fst).map BitVec.toNat := by
    simp
  rw [hsum, ofDigits_add (by simp [hlength]), hlhs, List.length_map, List.length_map] at hdigits
  exact hdigits

/-- Adding or subtracting the bytes of two numbers in turn adds or subtracts the numbers: the carry
says whether the sum is too long, or that nothing had to be borrowed. -/
theorem chain_exact (operands : List (Byte × Byte)) (result status : Byte) :
    let lhs := littleEndian (operands.map Prod.fst)
    let rhs := littleEndian (operands.map Prod.snd)
    let sum := chain Binary.add.code operands result (Status.assign .carry false status)
    let difference := chain Binary.subtract.code operands result (Status.assign .carry true status)
    (sum.1.length = operands.length ∧ littleEndian sum.1 = (lhs + rhs) % 256 ^ operands.length ∧
      (Status.value .carry sum.2 = true ↔ 256 ^ operands.length ≤ lhs + rhs)) ∧
    difference.1.length = operands.length ∧
      (littleEndian difference.1 : Int) = ((lhs : Int) - rhs) % 256 ^ operands.length ∧
      (Status.value .carry difference.2 = true ↔ rhs ≤ lhs) := by
  intro lhs rhs sum difference
  have hsum := add_of_carryChain
    (carryChain_add operands result (Status.assign .carry false status)) (length_chain _ _ _ _)
  have hdifference := subtract_of_carryChain
    (carryChain_subtract operands result (Status.assign .carry true status)) (length_chain _ _ _ _)
  have hsumLt := littleEndian_lt sum.1
  have hdifferenceLt := littleEndian_lt difference.1
  rw [length_chain] at hsumLt hdifferenceLt
  rw [Status.value_assign, if_pos rfl, Bool.toNat_false, Nat.add_zero] at hsum
  rw [Status.value_assign, if_pos rfl, Bool.not_true, Bool.toNat_false, Nat.add_zero]
    at hdifference
  refine ⟨⟨length_chain _ _ _ _, eq_mod_of_carry hsumLt hsum⟩, length_chain _ _ _ _, ?_⟩
  change lhs + 256 ^ operands.length * (!Status.value .carry difference.2).toNat =
    littleEndian difference.1 + rhs at hdifference
  have hmod : (littleEndian difference.1 : Int) % 256 ^ operands.length =
      littleEndian difference.1 := by
    apply Int.emod_eq_of_lt (Int.natCast_nonneg _)
    exact_mod_cast hdifferenceLt
  -- the carry is clear just when the difference has borrowed from above its last byte
  cases hcarry : Status.value .carry difference.2 with
  | true =>
      rw [hcarry, Bool.not_true, Bool.toNat_false, Nat.mul_zero, Nat.add_zero] at hdifference
      refine ⟨?_, fun _ => ?_, fun _ => rfl⟩
      · rw [← hmod]
        congr 1
        omega
      · omega
  | false =>
      rw [hcarry, Bool.not_false, Bool.toNat_true, Nat.mul_one] at hdifference
      refine ⟨?_, fun h => absurd h Bool.false_ne_true, fun hle => ?_⟩
      · rw [← hmod, ← Int.add_emod_right ((lhs : Int) - rhs)]
        congr 1
        have h : ((lhs + 256 ^ operands.length : Nat) : Int) =
            ((littleEndian difference.1 + rhs : Nat) : Int) := by
          rw [hdifference]
        push_cast at h
        omega
      · omega

/-! ## The overflow -/

theorem signBit_eq (w : Word) : (w &&& 0x80 != 0) = decide (128 ≤ w.toNat % 256) := by
  have hbit : w.getLsbD 7 = decide (w.toNat / 2 ^ 7 % 2 = 1) := Nat.testBit_eq_decide_div_mod_eq
  have hmask : ∀ i, (0x80 : Word).getLsbD i = (decide (i < 16) && decide (7 = i)) :=
    getLsbD_one_shiftLeft 7
  have hiff : w &&& 0x80 ≠ 0 ↔ w.getLsbD 7 = true := by
    constructor
    · intro hne
      by_contra hclear
      apply hne
      apply BitVec.eq_of_getLsbD_eq
      intro i hi
      rw [BitVec.getLsbD_and, hmask]
      by_cases h7 : 7 = i
      · subst h7
        rw [Bool.eq_false_iff.mpr hclear]
        rfl
      · rw [decide_eq_false h7, Bool.and_false, Bool.and_false]
        exact BitVec.getLsbD_zero.symm
    · intro hset hzero
      have h := congrArg (BitVec.getLsbD · 7) hzero
      simp only [BitVec.getLsbD_and, hset, hmask] at h
      exact absurd h (by decide)
  have hw : (w &&& 0x80 != 0) = w.getLsbD 7 := by
    rw [Bool.eq_iff_iff, bne_iff_ne]
    exact hiff
  rw [hw, hbit]
  congr 1
  rw [eq_iff_iff]
  omega

/-- The overflow of an addition is that of the signed sum of the bytes. -/
theorem overflow_add (lhs rhs r status : Byte) :
    Status.value .overflow (execute Binary.add.code lhs rhs r status).status =
      !decide (Representable 256 (lhs.toInt + rhs.toInt + (Status.value .carry status).toNat)) := by
  show Status.value .overflow (Status.assign .overflow _ _) = _
  rw [Status.value_assign, if_pos rfl, signBit_eq, signBit_eq, signBit_eq, toNat_setWidth_byte,
    toNat_setWidth_byte, BitVec.toNat_add, BitVec.toNat_add, toNat_setWidth_byte,
    toNat_setWidth_byte, toNat_ofBool, BitVec.toInt_eq_toNat_cond, BitVec.toInt_eq_toNat_cond]
  have hl := lhs.isLt
  have hr := rhs.isLt
  have hc := Bool.toNat_le (Status.value .carry status)
  generalize (Status.value .carry status).toNat = c at hc ⊢
  generalize lhs.toNat = l at hl ⊢
  generalize rhs.toNat = m at hr ⊢
  have hrange : ∀ v : Int, Representable 256 v ↔ -256 ≤ 2 * v ∧ 2 * v < 256 := fun v => Iff.rfl
  rw [Bool.eq_iff_iff]
  simp only [Bool.and_eq_true, beq_iff_eq, bne_iff_ne, ne_eq, decide_eq_decide,
    Bool.not_eq_true', decide_eq_false_iff_not, hrange]
  -- the sign of the sum is its bit 7, whatever is carried out of it
  split_ifs <;> omega

theorem overflow_subtract (lhs rhs r status : Byte) :
    Status.value .overflow (execute Binary.subtract.code lhs rhs r status).status =
      Status.value .overflow status := by
  show Status.value .overflow (Status.assign .carry _ status) = _
  rw [Status.value_assign, if_neg (by decide)]

end Alu

/-! ## Signed numbers -/

/-- The two's complement number of a list of bytes, least significant first. -/
def signed (bytes : List Byte) : Int :=
  if 2 * littleEndian bytes < 256 ^ bytes.length then littleEndian bytes
  else (littleEndian bytes : Int) - (256 ^ bytes.length : Nat)

/-- The last byte of a number has its sign. -/
theorem signed_concat (bytes : List Byte) (b : Byte) :
    signed (bytes ++ [b]) = littleEndian bytes + (256 ^ bytes.length : Nat) * b.toInt := by
  have hlow := littleEndian_lt bytes
  unfold signed
  rw [littleEndian_concat, List.length_append, List.length_singleton, pow_succ,
    BitVec.toInt_eq_toNat_cond]
  generalize 256 ^ bytes.length = m at hlow ⊢
  have hb := b.isLt
  by_cases htop : 2 * b.toNat < 2 ^ 8
  · have hle : m * (b.toNat + 1) ≤ m * 128 := Nat.mul_le_mul_left m (by omega)
    rw [if_pos htop, if_pos (by linarith)]
    push_cast
    rfl
  · have hle : m * 128 ≤ m * b.toNat := Nat.mul_le_mul_left m (by omega)
    rw [if_neg htop, if_neg (by linarith)]
    push_cast
    ring

namespace Cpu

/-! ## Chains of ADC and SBC -/

/-- An instruction of the given mnemonic executes without an interrupt, on a byte in the accumulator
and an operand byte. -/
structure Accumulates (m : Mnemonic) (cpu : Cpu) (lhs rhs : Byte) (cpu' : Cpu) : Prop where
  boundary : cpu.AtBoundary
  notTaken : cpu.takesInterrupt = false
  instruction : ∃ i ∈ Isa.instructions, i.mnemonic = m ∧
    cpu.datapath.memory.byteAt cpu.datapath.pc = i.opcode ∧
    (cpu.datapath.arch.operand i).arch.look (cpu.datapath.arch.operand i).address = rhs
  accumulator : cpu.datapath.a = lhs
  executes : Executes cpu cpu'

/-- The instructions of the given mnemonic on the bytes of two numbers in turn, where whatever runs
in front of each of them keeps the carry and the overflow. -/
inductive AccumulateChain (m : Mnemonic) (cpu : Cpu) : List (Byte × Byte) → Cpu → Prop
  | nil : AccumulateChain m cpu [] cpu
  | concat {operands : List (Byte × Byte)} {s t cpu' : Cpu} {lhs rhs : Byte}
      (h : AccumulateChain m cpu operands s) (hrun : Run s t)
      (hcarry : Status.value .carry t.datapath.status = Status.value .carry s.datapath.status)
      (hoverflow :
        Status.value .overflow t.datapath.status = Status.value .overflow s.datapath.status)
      (hlast : Accumulates m t lhs rhs cpu') :
      AccumulateChain m cpu (operands ++ [(lhs, rhs)]) cpu'

/-- The carry and the overflow after the instruction are those of the arithmetic unit. -/
theorem Accumulates.status {m : Mnemonic} {f : Binary} (hcondition : m.condition = none)
    (haction : ∀ mode, m.action mode = .accumulate f) {cpu cpu' : Cpu} {lhs rhs : Byte}
    (h : Accumulates m cpu lhs rhs cpu') {g : StatusBit} (hz : g ≠ .zero) (hn : g ≠ .negative) :
    Status.value g cpu'.datapath.status =
      Status.value g (Alu.execute f.code lhs rhs 0 cpu.datapath.status).status := by
  rcases h.instruction with ⟨i, hi, rfl, hop, hrhs⟩
  have hnext := (nextOpcode_of_not_taken h.notTaken).trans hop
  have hexec := (execute_of_executes h.boundary hi hnext h.executes).1
  have hon : actionOn i cpu.datapath.arch.status = .accumulate f := by
    unfold actionOn
    rw [hcondition]
    exact haction i.addressingMode
  unfold Arch.execute at hexec
  rw [hon] at hexec
  have hlhs : (cpu.datapath.arch.operand i).arch.a = lhs :=
    (Arch.operand_reg cpu.datapath.arch i .a).trans h.accumulator
  have hstatus : (cpu.datapath.arch.operand i).arch.status = cpu.datapath.status :=
    Arch.operand_status cpu.datapath.arch i
  have harch := Except.ok.inj hexec
  show Status.value g cpu'.datapath.arch.status = _
  rw [← harch, Arch.value_result hz hn, Arch.status_setReg]
  show Status.value g (Alu.execute f.code (cpu.datapath.arch.operand i).arch.a
    ((cpu.datapath.arch.operand i).arch.look (cpu.datapath.arch.operand i).address) 0
    (cpu.datapath.arch.operand i).arch.status).status = _
  rw [hlhs, hstatus, hrhs]

theorem AccumulateChain.add {cpu cpu' : Cpu} {operands : List (Byte × Byte)}
    (h : AccumulateChain .adc cpu operands cpu') :
    ∃ bytes : List Byte, bytes.length = operands.length ∧
      CarryChain 256 (Status.value .carry cpu.datapath.status).toNat (bytes.map BitVec.toNat)
        (operands.map fun (lhs, rhs) => lhs.toNat + rhs.toNat)
        (Status.value .carry cpu'.datapath.status).toNat := by
  induction h with
  | nil => exact ⟨[], rfl, .nil _⟩
  | @concat operands s t cpu' lhs rhs _ _ hcarry _ hlast ih =>
      rcases ih with ⟨bytes, hlength, hchain⟩
      have hdigit := Alu.digit_add lhs rhs t.datapath.status
      have hout : Status.value .carry cpu'.datapath.status =
          Alu.carryOut Binary.add.code lhs rhs t.datapath.status :=
        hlast.status rfl (fun _ => rfl) (by decide) (by decide)
      rw [← hout, hcarry] at hdigit
      refine ⟨bytes ++ [Binary.add.value lhs rhs (Status.value .carry s.datapath.status)], ?_, ?_⟩
      · rw [List.length_append, List.length_append, hlength]
        rfl
      · rw [List.map_append, List.map_append]
        exact hchain.append (.single hdigit)

theorem AccumulateChain.subtract {cpu cpu' : Cpu} {operands : List (Byte × Byte)}
    (h : AccumulateChain .sbc cpu operands cpu') :
    ∃ bytes : List Byte, bytes.length = operands.length ∧
      CarryChain 256 (!Status.value .carry cpu.datapath.status).toNat
        (operands.map fun (lhs, _) => lhs.toNat)
        (List.zipWith (fun (d : Byte) (operand : Byte × Byte) => d.toNat + operand.2.toNat) bytes
          operands)
        (!Status.value .carry cpu'.datapath.status).toNat := by
  induction h with
  | nil => exact ⟨[], rfl, .nil _⟩
  | @concat operands s t cpu' lhs rhs _ _ hcarry _ hlast ih =>
      rcases ih with ⟨bytes, hlength, hchain⟩
      have hdigit := Alu.digit_subtract lhs rhs t.datapath.status
      have hout : Status.value .carry cpu'.datapath.status =
          Alu.carryOut Binary.subtract.code lhs rhs t.datapath.status :=
        hlast.status rfl (fun _ => rfl) (by decide) (by decide)
      rw [← hout, hcarry] at hdigit
      refine ⟨bytes ++ [Binary.subtract.value lhs rhs (Status.value .carry s.datapath.status)],
        ?_, ?_⟩
      · rw [List.length_append, List.length_append, hlength]
        rfl
      · rw [List.map_append, List.zipWith_append hlength]
        exact hchain.append (.single hdigit)

/-- SBC leaves the overflow alone. -/
theorem AccumulateChain.overflow_sbc {cpu cpu' : Cpu} {operands : List (Byte × Byte)}
    (h : AccumulateChain .sbc cpu operands cpu') :
    Status.value .overflow cpu'.datapath.status = Status.value .overflow cpu.datapath.status := by
  induction h with
  | nil => rfl
  | concat _ _ _ hoverflow hlast ih =>
      have hout := hlast.status rfl (fun _ => rfl) (g := .overflow) (by decide) (by decide)
      rw [Alu.overflow_subtract, hoverflow, ih] at hout
      exact hout

/-- ADC sets the overflow of the signed sum: the bytes below the last one matter only by the carry
that they hand to it. -/
theorem AccumulateChain.overflow_adc {cpu cpu' : Cpu} {operands : List (Byte × Byte)}
    (h : AccumulateChain .adc cpu operands cpu') (hne : operands ≠ [])
    (hclear : Status.value .carry cpu.datapath.status = false) :
    Status.value .overflow cpu'.datapath.status = true ↔
      ¬Representable (256 ^ operands.length)
        (signed (operands.map Prod.fst) + signed (operands.map Prod.snd)) := by
  cases h with
  | nil => exact absurd rfl hne
  | @concat operands s t _ lhs rhs hlower _ hcarry _ hlast =>
      rcases hlower.add with ⟨bytes, hlength, hchain⟩
      have hsum := Alu.add_of_carryChain hchain hlength
      have hout := hlast.status rfl (fun _ => rfl) (g := .overflow) (by decide) (by decide)
      have hlow := littleEndian_lt bytes
      rw [hlength] at hlow
      rw [hclear, Bool.toNat_false, Nat.add_zero, ← hcarry] at hsum
      rw [Alu.overflow_add] at hout
      -- the signed sum is the lower bytes of the sum under the sum of the top bytes
      have hsigned : signed ((operands ++ [(lhs, rhs)]).map Prod.fst) +
          signed ((operands ++ [(lhs, rhs)]).map Prod.snd) =
          littleEndian bytes + (256 ^ operands.length : Nat) * (lhs.toInt + rhs.toInt +
            (Status.value .carry t.datapath.status).toNat) := by
        rw [List.map_append, List.map_append, List.map_singleton, List.map_singleton,
          signed_concat, signed_concat, List.length_map, List.length_map]
        have hcast := congrArg (Nat.cast : Nat → Int) hsum
        push_cast at hcast ⊢
        linarith
      rw [hsigned, List.length_append, List.length_singleton, pow_succ,
        representable_low_add hlow _ (by decide), hout, Bool.not_eq_true', decide_eq_false_iff_not]

/-- What ADC and SBC compute. -/
def exactResult (m : Mnemonic) (lhs rhs : Int) : Int := if m = .adc then lhs + rhs else lhs - rhs

/-- The overflow after a chain says that the signed result is not representable, always after ADC,
and after SBC when it has said so before. -/
theorem overflow_iff {m : Mnemonic} (hm : m = .adc ∨ m = .sbc) {cpu cpu' : Cpu}
    {operands : List (Byte × Byte)} (hne : operands ≠ [])
    (hcarry : Status.value .carry cpu.datapath.status = decide (m = .sbc))
    (h : AccumulateChain m cpu operands cpu') :
    (Status.value .overflow cpu'.datapath.status = true ↔
      ¬Representable (256 ^ operands.length)
        (exactResult m (signed (operands.map Prod.fst)) (signed (operands.map Prod.snd)))) ↔
    m = .adc ∨ (Status.value .overflow cpu.datapath.status = true ↔
      ¬Representable (256 ^ operands.length)
        (exactResult m (signed (operands.map Prod.fst)) (signed (operands.map Prod.snd)))) := by
  rcases hm with rfl | rfl
  · exact iff_of_true (h.overflow_adc hne hcarry) (.inl rfl)
  · rw [h.overflow_sbc]
    exact (or_iff_right (by decide)).symm

/-- From 0 with the overflow clear, SBC #$80 leaves the overflow clear, although 128 is no signed
byte. -/
theorem not_overflow_sbc :
    ∃ cpu cpu' : Cpu, AccumulateChain .sbc cpu [(0x00, 0x80)] cpu' ∧
      Status.value .carry cpu.datapath.status = true ∧
      Status.value .overflow cpu'.datapath.status = false ∧
      ¬Representable 256 (signed [0x00] - signed [0x80]) := by
  rcases exists_instructionMemory with ⟨m, hm⟩
  have hsbc : (⟨.sbc, 0x21, .imm, [.zero, .negative, .carry, .overflow]⟩ : InstructionInfo) ∈
      Isa.instructions := by
    decide
  have hb := atBoundary_programStart hm [0x21, 0x80] 0x01
  have hexec : ∃ s, ({ (imageDatapath [0x21, 0x80]).arch with status := 0x01 } : Arch).execute
      ⟨.sbc, 0x21, .imm, [.zero, .negative, .carry, .overflow]⟩ = .ok s ∧
        Status.value .overflow s.status = false :=
    ⟨_, rfl, rfl⟩
  rcases hexec with ⟨s, hexec, hv⟩
  rcases exists_executes hb hsbc (nextOpcode_programStart _ _ _ _) hexec with ⟨t, ht, rfl, -⟩
  have hcarry : Status.value .carry 0x01 = true := by decide
  refine ⟨_, t, AccumulateChain.nil.concat .refl rfl rfl
    ⟨hb, takesInterrupt_programStart _ _ _, ⟨_, hsbc, rfl, opcode_programStart _ _ _ _, ?_⟩, rfl,
      ht⟩, hcarry, hv, by decide⟩
  rw [arch_programStart]
  decide

def adcImmediate : InstructionInfo := ⟨.adc, 0x20, .imm, [.zero, .negative, .carry, .overflow]⟩

/-- ADC #$80, LDA #$7F, ADC #$00: from $80 in the accumulator, the sum of $7F80 and $0080. -/
def sumBytes : List Byte := [0x20, 0x80, 0x10, 0x7F, 0x20, 0x00]

def sumDatapath : Datapath := { imageDatapath sumBytes with a := 0x80, status := 0x04 }

theorem overflow_iff_adc :
    ∃ cpu cpu' : Cpu, AccumulateChain .adc cpu [(0x80, 0x80), (0x7F, 0x00)] cpu' ∧
      Status.value .overflow cpu'.datapath.status = true ∧
      ¬Representable (256 ^ 2) (exactResult .adc (signed [0x80, 0x7F]) (signed [0x80, 0x00])) := by
  obtain ⟨m, hm⟩ := exists_instructionMemory
  have hadc : adcImmediate ∈ Isa.instructions := by decide
  have hlda : ldaImmediate ∈ Isa.instructions := by decide
  have hstart := undisturbed_start (d := sumDatapath) hm rfl rfl rfl
  have hop : sumDatapath.arch.look sumDatapath.arch.pc = 0x20 := by decide
  have hrhs : (sumDatapath.arch.operand adcImmediate).arch.look
      (sumDatapath.arch.operand adcImmediate).address = 0x80 := by
    decide
  have hsteps : ∃ s₁ s₂ s₃ : Arch, sumDatapath.arch.execute adcImmediate = .ok s₁ ∧
      s₁.execute ldaImmediate = .ok s₂ ∧ s₂.execute adcImmediate = .ok s₃ ∧
      s₁.status = 0x47 ∧ s₂.status = 0x45 ∧ s₃.status = 0xC4 ∧
      s₁.look s₁.pc = 0x10 ∧ s₂.look s₂.pc = 0x20 ∧ s₂.a = 0x7F ∧
      (s₂.operand adcImmediate).arch.look (s₂.operand adcImmediate).address = 0x00 := by
    refine ⟨_, _, _, rfl, rfl, rfl, rfl, rfl, rfl, ?_⟩
    decide
  obtain ⟨s₁, s₂, s₃, h₁, h₂, h₃, hp₁, hp₂, hp₃, hop₁, hop₂, ha₂, hrhs₂⟩ := hsteps
  obtain ⟨t₁, ht₁, rfl, hu₁⟩ := hstart.exists_executes hadc hop rfl h₁ (by rw [hp₁]; decide)
  obtain ⟨t₂, ht₂, rfl, hu₂⟩ := hu₁.exists_executes hlda hop₁ rfl h₂ (by rw [hp₂]; decide)
  obtain ⟨t₃, ht₃, rfl, -⟩ := hu₂.exists_executes hadc hop₂ rfl h₃ (by rw [hp₃]; decide)
  -- the load between the two additions leaves the carry and the overflow
  have hkept : Status.value .carry t₂.datapath.arch.status =
        Status.value .carry t₁.datapath.arch.status ∧
      Status.value .overflow t₂.datapath.arch.status =
        Status.value .overflow t₁.datapath.arch.status := by
    rw [hp₁, hp₂]
    decide
  have hlow : AccumulateChain .adc (Cpu.start sumDatapath m) [(0x80, 0x80)] t₁ :=
    AccumulateChain.nil.concat .refl rfl rfl
      ⟨hstart.boundary, hstart.notTaken, ⟨_, hadc, rfl, hop, hrhs⟩, rfl, ht₁⟩
  have hchain := hlow.concat ht₂.run hkept.1 hkept.2
    ⟨hu₂.boundary, hu₂.notTaken, ⟨_, hadc, rfl, hop₂, hrhs₂⟩, ha₂, ht₃⟩
  have hcarry : Status.value .carry sumDatapath.status = false := by decide
  have hlarge : ¬Representable (256 ^ 2)
      (exactResult .adc (signed [0x80, 0x7F]) (signed [0x80, 0x00])) := by
    decide
  have hiff := (overflow_iff (.inl rfl) (List.cons_ne_nil _ _) hcarry hchain).mpr (.inl rfl)
  exact ⟨_, t₃, hchain, hiff.mpr hlarge, hlarge⟩

end Cpu

end Irata2.Sim
