import Irata2.Microcode.Bodies
import Irata2.Microcode.Source

/-!
# The default program

`BuildMicrocodeProgram` compiles the instruction set of `microcode.yaml` with the status bits of
the hardware description.  The compiler accepts it.
-/

namespace Irata2.Microcode.Irata

open Hdl

/-- `BuildStatusBits` -/
def statusBits : List StatusBitDefinition :=
  [StatusBit.negative, .overflow, .unused, .brk, .decimal, .interruptDisable, .zero, .carry].map
    fun f => ⟨f.name, f.bitIndex⟩

/-- The compiler that `BuildMicrocodeProgram` constructs. -/
def compiler : Compiler where
  statusEncoder := ⟨statusBits, by decide⟩
  incrementControl := .scIncrement
  resetControl := .scReset

theorem isSource_instructionSet :
    ∀ i ∈ instructionSet.instructions, ∀ v ∈ i.variants,
      (∀ s ∈ v.steps, s.IsSource) ∧ v.steps.IsChain (· ≠ ·) ∧
        instructionSet.fetchPreamble.length + v.steps.length ≤ 256 := by
  decide +kernel

theorem statusValidate_instructionSet :
    ∀ i ∈ instructionSet.instructions,
      statusValidateInstruction compiler.statusEncoder i = .ok () := by
  have hshape : ∀ i ∈ instructionSet.instructions,
      i.isUnconditional = true ∨ i.isBranching compiler.statusEncoder = true := by
    decide +kernel
  intro i hi
  rcases hshape i hi with h | h
  · exact statusValidateInstruction_of_isUnconditional (.inl h)
  · exact statusValidateInstruction_of_isBranching (by decide) h

theorem accepts_instructionSet : compiler.Accepts instructionSet where
  increment := rfl
  reset := rfl
  preamble := by decide
  preamble_chain := by decide
  merged := by decide
  steps := fun i hi v hv => (isSource_instructionSet i hi v hv).1
  chain := fun i hi v hv => (isSource_instructionSet i hi v hv).2.1
  length := fun i hi v hv => (isSource_instructionSet i hi v hv).2.2
  statuses := statusValidate_instructionSet
  coverage := isaCoverageValidator_of_perm opcodes_perm

def programOf : Except MicrocodeError MicrocodeProgram → MicrocodeProgram
  | .ok p => p
  | .error _ => ⟨[], [], []⟩

theorem eq_ok_programOf {r : Except MicrocodeError MicrocodeProgram} {p : MicrocodeProgram}
    (h : r = .ok p) : r = .ok (programOf r) := by
  rw [h]
  rfl

/-- The program that `BuildMicrocodeProgram` returns. -/
def program : MicrocodeProgram := programOf (compiler.compile instructionSet)

theorem compile_instructionSet : compiler.compile instructionSet = .ok program := by
  rcases Compiler.exists_compile accepts_instructionSet with ⟨p, hp⟩
  exact eq_ok_programOf hp

end Irata2.Microcode.Irata
