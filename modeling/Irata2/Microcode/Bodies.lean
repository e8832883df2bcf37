import Irata2.Isa.Operations
import Irata2.Microcode.Irata
import Mathlib.Data.List.Perm.Subperm

/-!
# The shape of the microcode

Every body of `microcode.yaml` is the steps of its addressing mode followed by the steps of its
action.  An immediate operand is stepped over in the first step of the action, and a `JEQ` that is
not taken skips its address instead of computing it.
-/

namespace Irata2.Microcode.Irata

open Hdl Hdl.Control Hdl.StatusBit Hdl.ByteRegister Hdl.WordRegister Isa

/-- Both bytes of an absolute address; the low one waits in the result register. -/
def absoluteSteps : List (List Control) := [
  [pc.write, mar.read],
  [memoryWrite, marLow.read, aluResult.read, pcIncrement],
  [pc.write, mar.read],
  [memoryWrite, marHigh.read, pcIncrement],
  [aluResult.write, marLow.read]]

def zeroPageSteps : List (List Control) := [
  [pc.write, mar.read],
  [memoryWrite, marLow.read, pcIncrement]]

def indexSteps (r : Isa.Register) : List (List Control) := [
  [r.port.write, marOffset.read],
  [marAddOffset]]

/-- The address stored at the zero-page address in the memory address register. -/
def pointerSteps : List (List Control) := [
  [memoryWrite, aluResult.read],
  [marIncrement],
  [marHigh.reset],
  [memoryWrite, marHigh.read],
  [aluResult.write, marLow.read]]

/-- The steps that bring the effective address into the memory address register. -/
def addressSteps : AddressingMode → List (List Control)
  | .imp => []
  | .imm | .rel => [[pc.write, mar.read]]
  | .zp => zeroPageSteps ++ [[marHigh.reset]]
  | .zpx => zeroPageSteps ++ indexSteps .x ++ [[marHigh.reset]]
  | .zpy => zeroPageSteps ++ indexSteps .y ++ [[marHigh.reset]]
  | .abs | .ind => absoluteSteps
  | .abx => absoluteSteps ++ indexSteps .x
  | .aby => absoluteSteps ++ indexSteps .y
  | .izx => zeroPageSteps ++ indexSteps .x ++ [[marHigh.reset]] ++ pointerSteps
  | .izy => zeroPageSteps ++ [[marHigh.reset]] ++ pointerSteps ++ indexSteps .y

def stackAddress : List Control := [sp.write, marLow.read, marStackPage]

def pushSteps (r : ByteRegister) : List (List Control) := [
  stackAddress,
  [r.write, memoryRead, spDecrement]]

def pullSteps (r : ByteRegister) : List (List Control) := [
  [spIncrement],
  stackAddress,
  [memoryWrite, r.read]]

/-- The program counter is loaded from the address in the memory address register. -/
def loadPcSteps : List (List Control) := [
  [memoryWrite, pcLow.read],
  [marIncrement],
  [memoryWrite, pcHigh.read]]

def actionSteps : Action → List (List Control)
  | .nop => [[]]
  | .halt => [[Control.halt]]
  | .crash => [[Control.crash]]
  | .load r => [[memoryWrite, r.port.read, statusAnalyzer.read]]
  | .store r => [[r.port.write, memoryRead]]
  | .accumulate f => [
      [memoryWrite, aluRhs.read],
      [a.write, aluLhs.read],
      f.controls,
      [aluResult.write, a.read, statusAnalyzer.read]]
  | .compare r => [
      [memoryWrite, aluRhs.read],
      [r.port.write, aluLhs.read],
      [carry.set],
      opcodeBits 0x2,
      [aluResult.write, statusAnalyzer.read]]
  | .bit => [
      [memoryWrite, aluRhs.read],
      [a.write, aluLhs.read],
      opcodeBits 0xC,
      [aluResult.write, statusAnalyzer.read]]
  | .modify r f => [
      [r.port.write, aluLhs.read],
      f.controls,
      [aluResult.write, r.port.read, statusAnalyzer.read]]
  | .modifyMemory f => [
      [memoryWrite, aluLhs.read],
      f.controls,
      [aluResult.write, memoryRead, statusAnalyzer.read]]
  | .transfer source target => [[source.port.write, target.port.read, statusAnalyzer.read]]
  | .stackToX => [[sp.write, x.read, statusAnalyzer.read]]
  | .xToStack => [[x.write, sp.read]]
  | .pushAccumulator => pushSteps a
  | .pushStatus => pushSteps status
  | .pullAccumulator => [
      [spIncrement],
      stackAddress,
      [memoryWrite, a.read, statusAnalyzer.read]]
  | .pullStatus => pullSteps status
  | .assign f v => [[if v then f.set else f.clear]]
  | .branch => [[memoryWrite, pcIncrement, pcSignedOffset.read, pcAddSignedOffset]]
  | .skip => [[memoryWrite, pcIncrement]]
  | .jump => [[mar.write, pc.read]]
  | .jumpIndirect => loadPcSteps
  | .pass => []
  | .call => [[mar.write, tmp.read]] ++ pushSteps pcHigh ++ pushSteps pcLow ++
      [[tmp.write, pc.read]]
  | .ret => pullSteps pcLow ++ pullSteps pcHigh
  | .brk => [[interruptDisable.set]] ++ pushSteps pcHigh ++ pushSteps pcLow ++
      [stackAddress, [brk.set], [status.write, memoryRead, spDecrement], [brk.clear],
        [marInterruptVector]] ++ loadPcSteps
  | .irq => [[interruptDisable.set]] ++ pushSteps pcHigh ++ pushSteps pcLow ++
      [stackAddress, [brk.clear], [status.write, memoryRead, spDecrement],
        [marInterruptVector]] ++ loadPcSteps
  | .rti => pullSteps status ++ pullSteps pcLow ++ pullSteps pcHigh

/-- Steps over the operand in the first step. -/
def withIncrement : List (List Control) → List (List Control)
  | [] => []
  | s :: steps => (s ++ [pcIncrement]) :: steps

/-- The body of an instruction. -/
def body (mode : AddressingMode) (action : Action) : List (List Control) :=
  if action = .pass then [
    [pc.write, mar.read],
    [memoryWrite, marLow.read, pcIncrement],
    [pc.write, mar.read],
    [memoryWrite, marHigh.read, pcIncrement]]
  else if mode = .imm then addressSteps mode ++ withIncrement (actionSteps action)
  else addressSteps mode ++ actionSteps action

def variantsOf (i : InstructionInfo) : List InstructionVariant :=
  match i.mnemonic.condition with
  | none => always (body i.addressingMode (i.mnemonic.action i.addressingMode))
  | some (f, v) => [
      on f.name v (body i.addressingMode (i.mnemonic.action i.addressingMode)),
      on f.name (!v) (body i.addressingMode i.mnemonic.otherwise)]

def implementation (i : InstructionInfo) : Microcode.Instruction := ⟨i.opcode, variantsOf i⟩

/-- The file has a body for every instruction of the ISA, and it is the one of its shape. -/
theorem mem_instructionSet :
    ∀ i ∈ Isa.instructions, implementation i ∈ instructionSet.instructions := by
  decide +kernel

theorem instructionSet_length : instructionSet.instructions.length = Isa.instructions.length := by
  decide +kernel

/-- The file has no other bodies. -/
theorem instructionSet_perm :
    instructionSet.instructions.Perm (Isa.instructions.map implementation) := by
  have hnodup : (Isa.instructions.map implementation).Nodup := by
    refine List.Nodup.of_map (·.opcode) ?_
    rw [List.map_map]
    exact Isa.opcodes_nodup
  have hsub : Isa.instructions.map implementation ⊆ instructionSet.instructions := by
    intro j hj
    rcases List.mem_map.mp hj with ⟨i, hi, rfl⟩
    exact mem_instructionSet i hi
  refine ((hnodup.subperm hsub).perm_of_length_le (le_of_eq ?_)).symm
  rw [List.length_map, instructionSet_length]

theorem exists_of_mem_instructionSet {i : Microcode.Instruction}
    (h : i ∈ instructionSet.instructions) : ∃ j ∈ Isa.instructions, i = implementation j := by
  rcases List.mem_map.mp (instructionSet_perm.subset h) with ⟨j, hj, rfl⟩
  exact ⟨j, hj, rfl⟩

theorem opcodes_perm :
    (instructionSet.instructions.map (·.opcode)).Perm (Isa.instructions.map (·.opcode)) := by
  have h := instructionSet_perm.map (·.opcode)
  rw [List.map_map] at h
  exact h

end Irata2.Microcode.Irata
