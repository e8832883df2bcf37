import Irata2.Hdl.Control

/-!
# The microcode intermediate representation

A step is a set of controls asserted in one tick, a variant is the list of steps an opcode takes
when the status register satisfies its conditions, and an instruction set adds the preamble that
every instruction starts with.  The output of the compiler is a table of control words.
-/

namespace Irata2.Microcode

open Hdl

structure Step where
  stage : Int
  controls : List Control
  deriving DecidableEq, Repr

theorem sorted_nil : (([] : List (String × Bool)).map Prod.fst).Pairwise (· < ·) :=
  List.Pairwise.nil

/-- A variant of an instruction.  The conditions are a map from the names of status bits, so its
keys are sorted and distinct. -/
structure InstructionVariant where
  statusConditions : List (String × Bool)
  steps : List Step
  conditions_sorted : (statusConditions.map Prod.fst).Pairwise (· < ·) := by decide
  deriving DecidableEq

structure Instruction where
  opcode : Byte
  variants : List InstructionVariant
  deriving DecidableEq

structure InstructionSet where
  fetchPreamble : List Step
  instructions : List Instruction
  deriving DecidableEq

/-! ## The compiled program -/

structure MicrocodeKey where
  opcode : Byte
  step : Byte
  status : Byte
  deriving DecidableEq, Repr

/-- The address of a key in the microcode ROM. -/
def encodeKey (key : MicrocodeKey) : Nat :=
  key.opcode.toNat <<< 16 ||| key.step.toNat <<< 8 ||| key.status.toNat

abbrev ControlWord := BitVec 128

structure StatusBitDefinition where
  name : String
  bit : Nat
  deriving DecidableEq, Repr

structure MicrocodeProgram where
  table : List (Nat × ControlWord)
  controlPaths : List String
  statusBits : List StatusBitDefinition
  deriving DecidableEq, Repr

theorem encodeKey_eq (key : MicrocodeKey) :
    encodeKey key = key.opcode.toNat * 65536 + key.step.toNat * 256 + key.status.toNat := by
  have ho : key.opcode.toNat < 256 := key.opcode.isLt
  have hs : key.step.toNat < 256 := key.step.isLt
  have hst : key.status.toNat < 256 := key.status.isLt
  unfold encodeKey
  rw [Nat.shiftLeft_eq, Nat.shiftLeft_eq, Nat.or_assoc]
  have hlow : key.step.toNat * 2 ^ 8 ||| key.status.toNat =
      key.step.toNat * 2 ^ 8 + key.status.toNat := by
    rw [Nat.mul_comm, ← Nat.two_pow_add_eq_or_of_lt (by omega)]
  rw [hlow, Nat.mul_comm key.opcode.toNat, ← Nat.two_pow_add_eq_or_of_lt (by omega)]
  omega

theorem encodeKey_lt (key : MicrocodeKey) : encodeKey key < 2 ^ 24 := by
  have ho := key.opcode.isLt
  have hs := key.step.isLt
  have ht := key.status.isLt
  rw [encodeKey_eq]
  omega

theorem encodeKey_injective : Function.Injective encodeKey := by
  intro k l h
  rw [encodeKey_eq, encodeKey_eq] at h
  have hk1 : k.step.toNat < 256 := k.step.isLt
  have hk2 : k.status.toNat < 256 := k.status.isLt
  have hl1 : l.step.toNat < 256 := l.step.isLt
  have hl2 : l.status.toNat < 256 := l.status.isLt
  have ho : k.opcode = l.opcode := BitVec.eq_of_toNat_eq (by omega)
  have hs : k.step = l.step := BitVec.eq_of_toNat_eq (by omega)
  have hst : k.status = l.status := BitVec.eq_of_toNat_eq (by omega)
  cases k
  cases l
  rw [MicrocodeKey.mk.injEq]
  exact ⟨ho, hs, hst⟩

/-! ## Errors -/

/-- The kinds of conflict between the controls of one component. -/
inductive ConflictKind
  | readWrite
  | setClear
  | incrementDecrement
  deriving DecidableEq, Repr

def ConflictKind.name : ConflictKind → String
  | readWrite => "read and write"
  | setClear => "set and clear"
  | incrementDecrement => "increment and decrement"

/-- One constructor for each `throw MicrocodeError` of the compiler and its encoders. -/
inductive MicrocodeError
  | statusBitOutOfRange (bit : Nat)
  | statusBitsNotConfigured
  | unknownStatus (name : String)
  | fetchPreambleMismatch (opcode : Byte)
  | fetchPreambleMismatchAt (opcode : Byte) (step : Nat)
  | multipleWriters (bus : BusType) (opcode : Int) (step : Nat) (writers : List Control)
  | readersWithoutWriter (bus : BusType) (opcode : Int) (step : Nat) (readers : List Control)
  | controlConflict (kind : ConflictKind) (component : Owner) (opcode : Int) (step : Nat)
  | preambleStart (stage : Int)
  | preambleNotMonotonic (step : Nat) (stage previous : Int)
  | preambleGap (expected found : Int)
  | variantStart (opcode : Byte) (stage : Int)
  | notMonotonic (opcode : Byte) (step : Nat) (stage previous : Int)
  | stageGap (opcode : Byte) (expected found : Int)
  | multipleStatusBits (opcode : Byte) (conditions : List (String × Bool))
  | overlappingStatus (opcode status : Byte)
  | incompleteStatus (opcode : Byte) (covered total : Nat) (missing : List Byte)
  | unknownOpcode (opcode : Byte)
  | duplicateOpcode (opcode : Byte)
  | notAllImplemented (expected got : Nat)
  | sequenceControlMissing (opcode : Byte) (step : Nat)
  | stepIndexOutOfRange (step : Nat)
  | microcodeConflict (key : MicrocodeKey)
  deriving DecidableEq, Repr

namespace MicrocodeError

def busName : BusType → String
  | .data => "data"
  | .address => "address"

def conditionText (c : String × Bool) : String := c.1 ++ "=" ++ if c.2 then "true" else "false"

/-- The missing statuses, at most five of them. -/
def missingText (missing : List Byte) : String :=
  if missing.isEmpty then ""
  else
    " (missing:" ++
      ",".intercalate ((missing.take 5).map fun s => " " ++ toString s.toNat) ++
      (if missing.length > 5 then " and " ++ toString (missing.length - 5) ++ " more" else "") ++
      ")"

def message : MicrocodeError → String
  | statusBitOutOfRange bit => "status bit out of range: " ++ toString bit
  | statusBitsNotConfigured => "status bits not configured"
  | unknownStatus name => "unknown status: " ++ name
  | fetchPreambleMismatch opcode =>
      "fetch preamble mismatch for opcode " ++ toString opcode.toNat
  | fetchPreambleMismatchAt opcode step =>
      "fetch preamble mismatch for opcode " ++ toString opcode.toNat ++
        " at step " ++ toString step
  | multipleWriters bus opcode step writers =>
      "multiple writers to " ++ busName bus ++ " bus in opcode " ++ toString opcode ++
        " step " ++ toString step ++ ": " ++ ", ".intercalate (writers.map (·.path))
  | readersWithoutWriter bus opcode step readers =>
      "readers on " ++ busName bus ++ " bus without writer in opcode " ++ toString opcode ++
        " step " ++ toString step ++ ": " ++ ", ".intercalate (readers.map (·.path))
  | controlConflict kind component opcode step =>
      "conflicting " ++ kind.name ++ " on component '" ++ component.path ++ "' in opcode " ++
        toString opcode ++ " step " ++ toString step
  | preambleStart stage => "fetch preamble must start at stage 0, got stage " ++ toString stage
  | preambleNotMonotonic step stage previous =>
      "fetch preamble stages not monotonic at step " ++ toString step ++ ": stage " ++
        toString stage ++ " after stage " ++ toString previous
  | preambleGap expected found =>
      "fetch preamble has gap in stages: expected stage " ++ toString expected ++
        ", found stage " ++ toString found
  | variantStart opcode stage =>
      "instruction variant in opcode " ++ toString opcode.toNat ++
        " must start at stage 0, got stage " ++ toString stage
  | notMonotonic opcode step stage previous =>
      "opcode " ++ toString opcode.toNat ++ " stages not monotonic at step " ++ toString step ++
        ": stage " ++ toString stage ++ " after stage " ++ toString previous
  | stageGap opcode expected found =>
      "opcode " ++ toString opcode.toNat ++ " has gap in stages: expected stage " ++
        toString expected ++ ", found stage " ++ toString found
  | multipleStatusBits opcode conditions =>
      "variant specifies multiple status bits in opcode " ++ toString opcode.toNat ++ ": " ++
        ", ".intercalate (conditions.map conditionText)
  | overlappingStatus opcode status =>
      "overlapping status coverage in opcode " ++ toString opcode.toNat ++ ": status " ++
        toString status.toNat ++ " covered by multiple variants"
  | incompleteStatus opcode covered total missing =>
      "incomplete status coverage in opcode " ++ toString opcode.toNat ++ ": covered " ++
        toString covered ++ " of " ++ toString total ++ " possible statuses" ++
        missingText missing
  | unknownOpcode opcode => "microcode defines unknown opcode " ++ toString opcode.toNat
  | duplicateOpcode opcode => "duplicate microcode for opcode " ++ toString opcode.toNat
  | notAllImplemented expected got =>
      "microcode does not implement all ISA instructions (expected " ++ toString expected ++
        ", got " ++ toString got ++ ")"
  | sequenceControlMissing opcode step =>
      "sequence control missing for opcode " ++ toString opcode.toNat ++
        " at step " ++ toString step
  | stepIndexOutOfRange step =>
      "step index out of range for instruction memory: " ++ toString step
  | microcodeConflict key =>
      "microcode conflict at opcode " ++ toString key.opcode.toNat ++ " step " ++
        toString key.step.toNat ++ " status " ++ toString key.status.toNat

end MicrocodeError

end Irata2.Microcode
