import Irata2.Isa.Instructions
import Irata2.Microcode.Ir

/-!
# The microcode of the instruction set

The fetch preamble and the 153 instructions of `microcode.yaml`, in the order of the file and
under its section titles.  Every instruction has a single stage of its own.
-/

namespace Irata2.Microcode.Irata

open Hdl Hdl.Control Hdl.StatusBit Hdl.ByteRegister Hdl.WordRegister

def ownSteps (steps : List (List Control)) : List Step := steps.map (Step.mk 0)

def always (steps : List (List Control)) : List InstructionVariant := [⟨[], ownSteps steps, sorted_nil⟩]

/-- The variant that runs when the named status bit has the given value. -/
def on (name : String) (value : Bool) (steps : List (List Control)) : InstructionVariant :=
  ⟨[(name, value)], ownSteps steps, by simp⟩

def instruction (m : Isa.Mnemonic) (mode : Isa.AddressingMode)
    (variants : List InstructionVariant) : Instruction :=
  ⟨(Isa.opcodeOf m mode).getD 0, variants⟩

def fetchPreamble : List Step := ownSteps [
  [pc.write, mar.read, instructionStart],
  [memoryWrite, ir.read],
  [pcIncrement]]

/-! ## Immediate, Implied and Control Flow Instructions -/

def immediateAndImplied : List Instruction := [
  instruction .hlt .imp (always [[halt]]),
  instruction .nop .imp (always [[]]),
  instruction .crs .imp (always [[crash]]),
  instruction .lda .imm (always [
    [pc.write, mar.read],
    [memoryWrite, a.read, statusAnalyzer.read, pcIncrement]]),
  instruction .cmp .imm (always [
    [pc.write, mar.read],
    [memoryWrite, aluRhs.read, pcIncrement],
    [a.write, aluLhs.read],
    [carry.set],
    [aluOpcodeBit 1],
    [aluResult.write, statusAnalyzer.read]]),
  instruction .cpx .imm (always [
    [pc.write, mar.read],
    [memoryWrite, aluRhs.read, pcIncrement],
    [x.write, aluLhs.read],
    [carry.set],
    [aluOpcodeBit 1],
    [aluResult.write, statusAnalyzer.read]]),
  instruction .cpy .imm (always [
    [pc.write, mar.read],
    [memoryWrite, aluRhs.read, pcIncrement],
    [y.write, aluLhs.read],
    [carry.set],
    [aluOpcodeBit 1],
    [aluResult.write, statusAnalyzer.read]]),
  instruction .adc .imm (always [
    [pc.write, mar.read],
    [memoryWrite, aluRhs.read, pcIncrement],
    [a.write, aluLhs.read],
    [aluOpcodeBit 0],
    [aluResult.write, a.read, statusAnalyzer.read]]),
  instruction .sbc .imm (always [
    [pc.write, mar.read],
    [memoryWrite, aluRhs.read, pcIncrement],
    [a.write, aluLhs.read],
    [aluOpcodeBit 1],
    [aluResult.write, a.read, statusAnalyzer.read]]),
  instruction .and .imm (always [
    [pc.write, mar.read],
    [memoryWrite, aluRhs.read, pcIncrement],
    [a.write, aluLhs.read],
    [aluOpcodeBit 2],
    [aluResult.write, a.read, statusAnalyzer.read]]),
  instruction .ora .imm (always [
    [pc.write, mar.read],
    [memoryWrite, aluRhs.read, pcIncrement],
    [a.write, aluLhs.read],
    [aluOpcodeBit 0, aluOpcodeBit 2],
    [aluResult.write, a.read, statusAnalyzer.read]]),
  instruction .eor .imm (always [
    [pc.write, mar.read],
    [memoryWrite, aluRhs.read, pcIncrement],
    [a.write, aluLhs.read],
    [aluOpcodeBit 1, aluOpcodeBit 2],
    [aluResult.write, a.read, statusAnalyzer.read]]),
  instruction .asl .imp (always [
    [a.write, aluLhs.read],
    [aluOpcodeBit 0, aluOpcodeBit 1, aluOpcodeBit 2],
    [aluResult.write, a.read, statusAnalyzer.read]]),
  instruction .lsr .imp (always [
    [a.write, aluLhs.read],
    [aluOpcodeBit 3],
    [aluResult.write, a.read, statusAnalyzer.read]]),
  instruction .rol .imp (always [
    [a.write, aluLhs.read],
    [aluOpcodeBit 0, aluOpcodeBit 3],
    [aluResult.write, a.read, statusAnalyzer.read]]),
  instruction .ror .imp (always [
    [a.write, aluLhs.read],
    [aluOpcodeBit 1, aluOpcodeBit 3],
    [aluResult.write, a.read, statusAnalyzer.read]]),
  instruction .tax .imp (always [[a.write, x.read, statusAnalyzer.read]]),
  instruction .txa .imp (always [[x.write, a.read, statusAnalyzer.read]]),
  instruction .ldx .imm (always [
    [pc.write, mar.read],
    [memoryWrite, x.read, statusAnalyzer.read, pcIncrement]]),
  instruction .tay .imp (always [[a.write, y.read, statusAnalyzer.read]]),
  instruction .tya .imp (always [[y.write, a.read, statusAnalyzer.read]]),
  instruction .ldy .imm (always [
    [pc.write, mar.read],
    [memoryWrite, y.read, statusAnalyzer.read, pcIncrement]]),
  instruction .jeq .abs [
    on "zero" true [
      [pc.write, mar.read],
      [memoryWrite, marLow.read, aluResult.read, pcIncrement],
      [pc.write, mar.read],
      [memoryWrite, marHigh.read, pcIncrement],
      [aluResult.write, marLow.read],
      [mar.write, pc.read]],
    on "zero" false [
      [pc.write, mar.read],
      [memoryWrite, marLow.read, pcIncrement],
      [pc.write, mar.read],
      [memoryWrite, marHigh.read, pcIncrement]]],
  instruction .jmp .abs (always [
    [pc.write, mar.read],
    [memoryWrite, marLow.read, aluResult.read, pcIncrement],
    [pc.write, mar.read],
    [memoryWrite, marHigh.read, pcIncrement],
    [aluResult.write, marLow.read],
    [mar.write, pc.read]]),
  instruction .jmp .ind (always [
    [pc.write, mar.read],
    [memoryWrite, marLow.read, aluResult.read, pcIncrement],
    [pc.write, mar.read],
    [memoryWrite, marHigh.read, pcIncrement],
    [aluResult.write, marLow.read],
    [memoryWrite, pcLow.read],
    [marIncrement],
    [memoryWrite, pcHigh.read]]),
  instruction .beq .rel [
    on "zero" true [
      [pc.write, mar.read],
      [memoryWrite, pcIncrement, pcSignedOffset.read, pcAddSignedOffset]],
    on "zero" false [
      [pc.write, mar.read],
      [memoryWrite, pcIncrement]]],
  instruction .bne .rel [
    on "zero" false [
      [pc.write, mar.read],
      [memoryWrite, pcIncrement, pcSignedOffset.read, pcAddSignedOffset]],
    on "zero" true [
      [pc.write, mar.read],
      [memoryWrite, pcIncrement]]],
  instruction .bcs .rel [
    on "carry" true [
      [pc.write, mar.read],
      [memoryWrite, pcIncrement, pcSignedOffset.read, pcAddSignedOffset]],
    on "carry" false [
      [pc.write, mar.read],
      [memoryWrite, pcIncrement]]],
  instruction .bcc .rel [
    on "carry" false [
      [pc.write, mar.read],
      [memoryWrite, pcIncrement, pcSignedOffset.read, pcAddSignedOffset]],
    on "carry" true [
      [pc.write, mar.read],
      [memoryWrite, pcIncrement]]],
  instruction .bmi .rel [
    on "negative" true [
      [pc.write, mar.read],
      [memoryWrite, pcIncrement, pcSignedOffset.read, pcAddSignedOffset]],
    on "negative" false [
      [pc.write, mar.read],
      [memoryWrite, pcIncrement]]],
  instruction .bpl .rel [
    on "negative" false [
      [pc.write, mar.read],
      [memoryWrite, pcIncrement, pcSignedOffset.read, pcAddSignedOffset]],
    on "negative" true [
      [pc.write, mar.read],
      [memoryWrite, pcIncrement]]],
  instruction .bvs .rel [
    on "overflow" true [
      [pc.write, mar.read],
      [memoryWrite, pcIncrement, pcSignedOffset.read, pcAddSignedOffset]],
    on "overflow" false [
      [pc.write, mar.read],
      [memoryWrite, pcIncrement]]],
  instruction .bvc .rel [
    on "overflow" false [
      [pc.write, mar.read],
      [memoryWrite, pcIncrement, pcSignedOffset.read, pcAddSignedOffset]],
    on "overflow" true [
      [pc.write, mar.read],
      [memoryWrite, pcIncrement]]]]

/-! ## Zero Page Load/Store Instructions -/

def zeroPageLoadStore : List Instruction := [
  instruction .lda .zp (always [
    [pc.write, mar.read],
    [memoryWrite, marLow.read, pcIncrement],
    [marHigh.reset],
    [memoryWrite, a.read, statusAnalyzer.read]]),
  instruction .sta .zp (always [
    [pc.write, mar.read],
    [memoryWrite, marLow.read, pcIncrement],
    [marHigh.reset],
    [a.write, memoryRead]]),
  instruction .ldx .zp (always [
    [pc.write, mar.read],
    [memoryWrite, marLow.read, pcIncrement],
    [marHigh.reset],
    [memoryWrite, x.read, statusAnalyzer.read]]),
  instruction .stx .zp (always [
    [pc.write, mar.read],
    [memoryWrite, marLow.read, pcIncrement],
    [marHigh.reset],
    [x.write, memoryRead]]),
  instruction .ldy .zp (always [
    [pc.write, mar.read],
    [memoryWrite, marLow.read, pcIncrement],
    [marHigh.reset],
    [memoryWrite, y.read, statusAnalyzer.read]]),
  instruction .sty .zp (always [
    [pc.write, mar.read],
    [memoryWrite, marLow.read, pcIncrement],
    [marHigh.reset],
    [y.write, memoryRead]])]

/-! ## Zero Page ALU Instructions -/

def zeroPageAlu : List Instruction := [
  instruction .adc .zp (always [
    [pc.write, mar.read],
    [memoryWrite, marLow.read, pcIncrement],
    [marHigh.reset],
    [memoryWrite, aluRhs.read],
    [a.write, aluLhs.read],
    [aluOpcodeBit 0],
    [aluResult.write, a.read, statusAnalyzer.read]]),
  instruction .sbc .zp (always [
    [pc.write, mar.read],
    [memoryWrite, marLow.read, pcIncrement],
    [marHigh.reset],
    [memoryWrite, aluRhs.read],
    [a.write, aluLhs.read],
    [aluOpcodeBit 1],
    [aluResult.write, a.read, statusAnalyzer.read]]),
  instruction .and .zp (always [
    [pc.write, mar.read],
    [memoryWrite, marLow.read, pcIncrement],
    [marHigh.reset],
    [memoryWrite, aluRhs.read],
    [a.write, aluLhs.read],
    [aluOpcodeBit 2],
    [aluResult.write, a.read, statusAnalyzer.read]]),
  instruction .ora .zp (always [
    [pc.write, mar.read],
    [memoryWrite, marLow.read, pcIncrement],
    [marHigh.reset],
    [memoryWrite, aluRhs.read],
    [a.write, aluLhs.read],
    [aluOpcodeBit 0, aluOpcodeBit 2],
    [aluResult.write, a.read, statusAnalyzer.read]]),
  instruction .eor .zp (always [
    [pc.write, mar.read],
    [memoryWrite, marLow.read, pcIncrement],
    [marHigh.reset],
    [memoryWrite, aluRhs.read],
    [a.write, aluLhs.read],
    [aluOpcodeBit 1, aluOpcodeBit 2],
    [aluResult.write, a.read, statusAnalyzer.read]]),
  instruction .cmp .zp (always [
    [pc.write, mar.read],
    [memoryWrite, marLow.read, pcIncrement],
    [marHigh.reset],
    [memoryWrite, aluRhs.read],
    [a.write, aluLhs.read],
    [carry.set],
    [aluOpcodeBit 1],
    [aluResult.write, statusAnalyzer.read]]),
  instruction .cpx .zp (always [
    [pc.write, mar.read],
    [memoryWrite, marLow.read, pcIncrement],
    [marHigh.reset],
    [memoryWrite, aluRhs.read],
    [x.write, aluLhs.read],
    [carry.set],
    [aluOpcodeBit 1],
    [aluResult.write, statusAnalyzer.read]]),
  instruction .cpy .zp (always [
    [pc.write, mar.read],
    [memoryWrite, marLow.read, pcIncrement],
    [marHigh.reset],
    [memoryWrite, aluRhs.read],
    [y.write, aluLhs.read],
    [carry.set],
    [aluOpcodeBit 1],
    [aluResult.write, statusAnalyzer.read]]),
  instruction .bit .zp (always [
    [pc.write, mar.read],
    [memoryWrite, marLow.read, pcIncrement],
    [marHigh.reset],
    [memoryWrite, aluRhs.read],
    [a.write, aluLhs.read],
    [aluOpcodeBit 2, aluOpcodeBit 3],
    [aluResult.write, statusAnalyzer.read]])]

/-! ## Zero Page Shift Instructions (read-modify-write) -/

def zeroPageShift : List Instruction := [
  instruction .asl .zp (always [
    [pc.write, mar.read],
    [memoryWrite, marLow.read, pcIncrement],
    [marHigh.reset],
    [memoryWrite, aluLhs.read],
    [aluOpcodeBit 0, aluOpcodeBit 1, aluOpcodeBit 2],
    [aluResult.write, memoryRead, statusAnalyzer.read]]),
  instruction .lsr .zp (always [
    [pc.write, mar.read],
    [memoryWrite, marLow.read, pcIncrement],
    [marHigh.reset],
    [memoryWrite, aluLhs.read],
    [aluOpcodeBit 3],
    [aluResult.write, memoryRead, statusAnalyzer.read]]),
  instruction .rol .zp (always [
    [pc.write, mar.read],
    [memoryWrite, marLow.read, pcIncrement],
    [marHigh.reset],
    [memoryWrite, aluLhs.read],
    [aluOpcodeBit 0, aluOpcodeBit 3],
    [aluResult.write, memoryRead, statusAnalyzer.read]]),
  instruction .ror .zp (always [
    [pc.write, mar.read],
    [memoryWrite, marLow.read, pcIncrement],
    [marHigh.reset],
    [memoryWrite, aluLhs.read],
    [aluOpcodeBit 1, aluOpcodeBit 3],
    [aluResult.write, memoryRead, statusAnalyzer.read]])]

/-! ## Absolute Load/Store Instructions -/

def absoluteLoadStore : List Instruction := [
  instruction .lda .abs (always [
    [pc.write, mar.read],
    [memoryWrite, marLow.read, aluResult.read, pcIncrement],
    [pc.write, mar.read],
    [memoryWrite, marHigh.read, pcIncrement],
    [aluResult.write, marLow.read],
    [memoryWrite, a.read, statusAnalyzer.read]]),
  instruction .sta .abs (always [
    [pc.write, mar.read],
    [memoryWrite, marLow.read, aluResult.read, pcIncrement],
    [pc.write, mar.read],
    [memoryWrite, marHigh.read, pcIncrement],
    [aluResult.write, marLow.read],
    [a.write, memoryRead]]),
  instruction .ldx .abs (always [
    [pc.write, mar.read],
    [memoryWrite, marLow.read, aluResult.read, pcIncrement],
    [pc.write, mar.read],
    [memoryWrite, marHigh.read, pcIncrement],
    [aluResult.write, marLow.read],
    [memoryWrite, x.read, statusAnalyzer.read]]),
  instruction .stx .abs (always [
    [pc.write, mar.read],
    [memoryWrite, marLow.read, aluResult.read, pcIncrement],
    [pc.write, mar.read],
    [memoryWrite, marHigh.read, pcIncrement],
    [aluResult.write, marLow.read],
    [x.write, memoryRead]]),
  instruction .ldy .abs (always [
    [pc.write, mar.read],
    [memoryWrite, marLow.read, aluResult.read, pcIncrement],
    [pc.write, mar.read],
    [memoryWrite, marHigh.read, pcIncrement],
    [aluResult.write, marLow.read],
    [memoryWrite, y.read, statusAnalyzer.read]]),
  instruction .sty .abs (always [
    [pc.write, mar.read],
    [memoryWrite, marLow.read, aluResult.read, pcIncrement],
    [pc.write, mar.read],
    [memoryWrite, marHigh.read, pcIncrement],
    [aluResult.write, marLow.read],
    [y.write, memoryRead]])]

/-! ## Absolute ALU Instructions -/

def absoluteAlu : List Instruction := [
  instruction .adc .abs (always [
    [pc.write, mar.read],
    [memoryWrite, marLow.read, aluResult.read, pcIncrement],
    [pc.write, mar.read],
    [memoryWrite, marHigh.read, pcIncrement],
    [aluResult.write, marLow.read],
    [memoryWrite, aluRhs.read],
    [a.write, aluLhs.read],
    [aluOpcodeBit 0],
    [aluResult.write, a.read, statusAnalyzer.read]]),
  instruction .sbc .abs (always [
    [pc.write, mar.read],
    [memoryWrite, marLow.read, aluResult.read, pcIncrement],
    [pc.write, mar.read],
    [memoryWrite, marHigh.read, pcIncrement],
    [aluResult.write, marLow.read],
    [memoryWrite, aluRhs.read],
    [a.write, aluLhs.read],
    [aluOpcodeBit 1],
    [aluResult.write, a.read, statusAnalyzer.read]]),
  instruction .and .abs (always [
    [pc.write, mar.read],
    [memoryWrite, marLow.read, aluResult.read, pcIncrement],
    [pc.write, mar.read],
    [memoryWrite, marHigh.read, pcIncrement],
    [aluResult.write, marLow.read],
    [memoryWrite, aluRhs.read],
    [a.write, aluLhs.read],
    [aluOpcodeBit 2],
    [aluResult.write, a.read, statusAnalyzer.read]]),
  instruction .ora .abs (always [
    [pc.write, mar.read],
    [memoryWrite, marLow.read, aluResult.read, pcIncrement],
    [pc.write, mar.read],
    [memoryWrite, marHigh.read, pcIncrement],
    [aluResult.write, marLow.read],
    [memoryWrite, aluRhs.read],
    [a.write, aluLhs.read],
    [aluOpcodeBit 0, aluOpcodeBit 2],
    [aluResult.write, a.read, statusAnalyzer.read]]),
  instruction .eor .abs (always [
    [pc.write, mar.read],
    [memoryWrite, marLow.read, aluResult.read, pcIncrement],
    [pc.write, mar.read],
    [memoryWrite, marHigh.read, pcIncrement],
    [aluResult.write, marLow.read],
    [memoryWrite, aluRhs.read],
    [a.write, aluLhs.read],
    [aluOpcodeBit 1, aluOpcodeBit 2],
    [aluResult.write, a.read, statusAnalyzer.read]]),
  instruction .cmp .abs (always [
    [pc.write, mar.read],
    [memoryWrite, marLow.read, aluResult.read, pcIncrement],
    [pc.write, mar.read],
    [memoryWrite, marHigh.read, pcIncrement],
    [aluResult.write, marLow.read],
    [memoryWrite, aluRhs.read],
    [a.write, aluLhs.read],
    [carry.set],
    [aluOpcodeBit 1],
    [aluResult.write, statusAnalyzer.read]]),
  instruction .cpx .abs (always [
    [pc.write, mar.read],
    [memoryWrite, marLow.read, aluResult.read, pcIncrement],
    [pc.write, mar.read],
    [memoryWrite, marHigh.read, pcIncrement],
    [aluResult.write, marLow.read],
    [memoryWrite, aluRhs.read],
    [x.write, aluLhs.read],
    [carry.set],
    [aluOpcodeBit 1],
    [aluResult.write, statusAnalyzer.read]]),
  instruction .cpy .abs (always [
    [pc.write, mar.read],
    [memoryWrite, marLow.read, aluResult.read, pcIncrement],
    [pc.write, mar.read],
    [memoryWrite, marHigh.read, pcIncrement],
    [aluResult.write, marLow.read],
    [memoryWrite, aluRhs.read],
    [y.write, aluLhs.read],
    [carry.set],
    [aluOpcodeBit 1],
    [aluResult.write, statusAnalyzer.read]]),
  instruction .bit .abs (always [
    [pc.write, mar.read],
    [memoryWrite, marLow.read, aluResult.read, pcIncrement],
    [pc.write, mar.read],
    [memoryWrite, marHigh.read, pcIncrement],
    [aluResult.write, marLow.read],
    [memoryWrite, aluRhs.read],
    [a.write, aluLhs.read],
    [aluOpcodeBit 2, aluOpcodeBit 3],
    [aluResult.write, statusAnalyzer.read]])]

/-! ## Absolute Shift Instructions (read-modify-write) -/

def absoluteShift : List Instruction := [
  instruction .asl .abs (always [
    [pc.write, mar.read],
    [memoryWrite, marLow.read, aluResult.read, pcIncrement],
    [pc.write, mar.read],
    [memoryWrite, marHigh.read, pcIncrement],
    [aluResult.write, marLow.read],
    [memoryWrite, aluLhs.read],
    [aluOpcodeBit 0, aluOpcodeBit 1, aluOpcodeBit 2],
    [aluResult.write, memoryRead, statusAnalyzer.read]]),
  instruction .lsr .abs (always [
    [pc.write, mar.read],
    [memoryWrite, marLow.read, aluResult.read, pcIncrement],
    [pc.write, mar.read],
    [memoryWrite, marHigh.read, pcIncrement],
    [aluResult.write, marLow.read],
    [memoryWrite, aluLhs.read],
    [aluOpcodeBit 3],
    [aluResult.write, memoryRead, statusAnalyzer.read]]),
  instruction .rol .abs (always [
    [pc.write, mar.read],
    [memoryWrite, marLow.read, aluResult.read, pcIncrement],
    [pc.write, mar.read],
    [memoryWrite, marHigh.read, pcIncrement],
    [aluResult.write, marLow.read],
    [memoryWrite, aluLhs.read],
    [aluOpcodeBit 0, aluOpcodeBit 3],
    [aluResult.write, memoryRead, statusAnalyzer.read]]),
  instruction .ror .abs (always [
    [pc.write, mar.read],
    [memoryWrite, marLow.read, aluResult.read, pcIncrement],
    [pc.write, mar.read],
    [memoryWrite, marHigh.read, pcIncrement],
    [aluResult.write, marLow.read],
    [memoryWrite, aluLhs.read],
    [aluOpcodeBit 1, aluOpcodeBit 3],
    [aluResult.write, memoryRead, statusAnalyzer.read]])]

/-! ## Register Increment/Decrement Instructions -/

def registerIncDec : List Instruction := [
  instruction .inx .imp (always [
    [x.write, aluLhs.read],
    [aluOpcodeBit 0, aluOpcodeBit 1],
    [aluResult.write, x.read, statusAnalyzer.read]]),
  instruction .dex .imp (always [
    [x.write, aluLhs.read],
    [aluOpcodeBit 0, aluOpcodeBit 1, aluOpcodeBit 3],
    [aluResult.write, x.read, statusAnalyzer.read]]),
  instruction .iny .imp (always [
    [y.write, aluLhs.read],
    [aluOpcodeBit 0, aluOpcodeBit 1],
    [aluResult.write, y.read, statusAnalyzer.read]]),
  instruction .dey .imp (always [
    [y.write, aluLhs.read],
    [aluOpcodeBit 0, aluOpcodeBit 1, aluOpcodeBit 3],
    [aluResult.write, y.read, statusAnalyzer.read]])]

/-! ## Memory Increment/Decrement Instructions (read-modify-write) -/

def memoryIncDec : List Instruction := [
  instruction .inc .zp (always [
    [pc.write, mar.read],
    [memoryWrite, marLow.read, pcIncrement],
    [marHigh.reset],
    [memoryWrite, aluLhs.read],
    [aluOpcodeBit 0, aluOpcodeBit 1],
    [aluResult.write, memoryRead, statusAnalyzer.read]]),
  instruction .dec .zp (always [
    [pc.write, mar.read],
    [memoryWrite, marLow.read, pcIncrement],
    [marHigh.reset],
    [memoryWrite, aluLhs.read],
    [aluOpcodeBit 0, aluOpcodeBit 1, aluOpcodeBit 3],
    [aluResult.write, memoryRead, statusAnalyzer.read]]),
  instruction .inc .abs (always [
    [pc.write, mar.read],
    [memoryWrite, marLow.read, aluResult.read, pcIncrement],
    [pc.write, mar.read],
    [memoryWrite, marHigh.read, pcIncrement],
    [aluResult.write, marLow.read],
    [memoryWrite, aluLhs.read],
    [aluOpcodeBit 0, aluOpcodeBit 1],
    [aluResult.write, memoryRead, statusAnalyzer.read]]),
  instruction .dec .abs (always [
    [pc.write, mar.read],
    [memoryWrite, marLow.read, aluResult.read, pcIncrement],
    [pc.write, mar.read],
    [memoryWrite, marHigh.read, pcIncrement],
    [aluResult.write, marLow.read],
    [memoryWrite, aluLhs.read],
    [aluOpcodeBit 0, aluOpcodeBit 1, aluOpcodeBit 3],
    [aluResult.write, memoryRead, statusAnalyzer.read]])]

/-! ## Zero Page X-Indexed Load/Store Instructions -/

def zeroPageXLoadStore : List Instruction := [
  instruction .lda .zpx (always [
    [pc.write, mar.read],
    [memoryWrite, marLow.read, pcIncrement],
    [x.write, marOffset.read],
    [marAddOffset],
    [marHigh.reset],
    [memoryWrite, a.read, statusAnalyzer.read]]),
  instruction .sta .zpx (always [
    [pc.write, mar.read],
    [memoryWrite, marLow.read, pcIncrement],
    [x.write, marOffset.read],
    [marAddOffset],
    [marHigh.reset],
    [a.write, memoryRead]]),
  instruction .ldy .zpx (always [
    [pc.write, mar.read],
    [memoryWrite, marLow.read, pcIncrement],
    [x.write, marOffset.read],
    [marAddOffset],
    [marHigh.reset],
    [memoryWrite, y.read, statusAnalyzer.read]]),
  instruction .sty .zpx (always [
    [pc.write, mar.read],
    [memoryWrite, marLow.read, pcIncrement],
    [x.write, marOffset.read],
    [marAddOffset],
    [marHigh.reset],
    [y.write, memoryRead]])]

/-! ## Zero Page X-Indexed ALU Instructions -/

def zeroPageXAlu : List Instruction := [
  instruction .adc .zpx (always [
    [pc.write, mar.read],
    [memoryWrite, marLow.read, pcIncrement],
    [x.write, marOffset.read],
    [marAddOffset],
    [marHigh.reset],
    [memoryWrite, aluRhs.read],
    [a.write, aluLhs.read],
    [aluOpcodeBit 0],
    [aluResult.write, a.read, statusAnalyzer.read]]),
  instruction .sbc .zpx (always [
    [pc.write, mar.read],
    [memoryWrite, marLow.read, pcIncrement],
    [x.write, marOffset.read],
    [marAddOffset],
    [marHigh.reset],
    [memoryWrite, aluRhs.read],
    [a.write, aluLhs.read],
    [aluOpcodeBit 1],
    [aluResult.write, a.read, statusAnalyzer.read]]),
  instruction .and .zpx (always [
    [pc.write, mar.read],
    [memoryWrite, marLow.read, pcIncrement],
    [x.write, marOffset.read],
    [marAddOffset],
    [marHigh.reset],
    [memoryWrite, aluRhs.read],
    [a.write, aluLhs.read],
    [aluOpcodeBit 2],
    [aluResult.write, a.read, statusAnalyzer.read]]),
  instruction .ora .zpx (always [
    [pc.write, mar.read],
    [memoryWrite, marLow.read, pcIncrement],
    [x.write, marOffset.read],
    [marAddOffset],
    [marHigh.reset],
    [memoryWrite, aluRhs.read],
    [a.write, aluLhs.read],
    [aluOpcodeBit 0, aluOpcodeBit 2],
    [aluResult.write, a.read, statusAnalyzer.read]]),
  instruction .eor .zpx (always [
    [pc.write, mar.read],
    [memoryWrite, marLow.read, pcIncrement],
    [x.write, marOffset.read],
    [marAddOffset],
    [marHigh.reset],
    [memoryWrite, aluRhs.read],
    [a.write, aluLhs.read],
    [aluOpcodeBit 1, aluOpcodeBit 2],
    [aluResult.write, a.read, statusAnalyzer.read]]),
  instruction .cmp .zpx (always [
    [pc.write, mar.read],
    [memoryWrite, marLow.read, pcIncrement],
    [x.write, marOffset.read],
    [marAddOffset],
    [marHigh.reset],
    [memoryWrite, aluRhs.read],
    [a.write, aluLhs.read],
    [carry.set],
    [aluOpcodeBit 1],
    [aluResult.write, statusAnalyzer.read]])]

/-! ## Zero Page X-Indexed Shift Instructions (read-modify-write) -/

def zeroPageXShift : List Instruction := [
  instruction .asl .zpx (always [
    [pc.write, mar.read],
    [memoryWrite, marLow.read, pcIncrement],
    [x.write, marOffset.read],
    [marAddOffset],
    [marHigh.reset],
    [memoryWrite, aluLhs.read],
    [aluOpcodeBit 0, aluOpcodeBit 1, aluOpcodeBit 2],
    [aluResult.write, memoryRead, statusAnalyzer.read]]),
  instruction .lsr .zpx (always [
    [pc.write, mar.read],
    [memoryWrite, marLow.read, pcIncrement],
    [x.write, marOffset.read],
    [marAddOffset],
    [marHigh.reset],
    [memoryWrite, aluLhs.read],
    [aluOpcodeBit 3],
    [aluResult.write, memoryRead, statusAnalyzer.read]]),
  instruction .rol .zpx (always [
    [pc.write, mar.read],
    [memoryWrite, marLow.read, pcIncrement],
    [x.write, marOffset.read],
    [marAddOffset],
    [marHigh.reset],
    [memoryWrite, aluLhs.read],
    [aluOpcodeBit 0, aluOpcodeBit 3],
    [aluResult.write, memoryRead, statusAnalyzer.read]]),
  instruction .ror .zpx (always [
    [pc.write, mar.read],
    [memoryWrite, marLow.read, pcIncrement],
    [x.write, marOffset.read],
    [marAddOffset],
    [marHigh.reset],
    [memoryWrite, aluLhs.read],
    [aluOpcodeBit 1, aluOpcodeBit 3],
    [aluResult.write, memoryRead, statusAnalyzer.read]])]

/-! ## Zero Page X-Indexed Inc/Dec Instructions (read-modify-write) -/

def zeroPageXIncDec : List Instruction := [
  instruction .inc .zpx (always [
    [pc.write, mar.read],
    [memoryWrite, marLow.read, pcIncrement],
    [x.write, marOffset.read],
    [marAddOffset],
    [marHigh.reset],
    [memoryWrite, aluLhs.read],
    [aluOpcodeBit 0, aluOpcodeBit 1],
    [aluResult.write, memoryRead, statusAnalyzer.read]]),
  instruction .dec .zpx (always [
    [pc.write, mar.read],
    [memoryWrite, marLow.read, pcIncrement],
    [x.write, marOffset.read],
    [marAddOffset],
    [marHigh.reset],
    [memoryWrite, aluLhs.read],
    [aluOpcodeBit 0, aluOpcodeBit 1, aluOpcodeBit 3],
    [aluResult.write, memoryRead, statusAnalyzer.read]])]

/-! ## Zero Page Y-Indexed Load/Store Instructions -/

def zeroPageYLoadStore : List Instruction := [
  instruction .ldx .zpy (always [
    [pc.write, mar.read],
    [memoryWrite, marLow.read, pcIncrement],
    [y.write, marOffset.read],
    [marAddOffset],
    [marHigh.reset],
    [memoryWrite, x.read, statusAnalyzer.read]]),
  instruction .stx .zpy (always [
    [pc.write, mar.read],
    [memoryWrite, marLow.read, pcIncrement],
    [y.write, marOffset.read],
    [marAddOffset],
    [marHigh.reset],
    [x.write, memoryRead]])]

/-! ## Absolute X-Indexed Load/Store Instructions -/

def absoluteXLoadStore : List Instruction := [
  instruction .lda .abx (always [
    [pc.write, mar.read],
    [memoryWrite, marLow.read, aluResult.read, pcIncrement],
    [pc.write, mar.read],
    [memoryWrite, marHigh.read, pcIncrement],
    [aluResult.write, marLow.read],
    [x.write, marOffset.read],
    [marAddOffset],
    [memoryWrite, a.read, statusAnalyzer.read]]),
  instruction .sta .abx (always [
    [pc.write, mar.read],
    [memoryWrite, marLow.read, aluResult.read, pcIncrement],
    [pc.write, mar.read],
    [memoryWrite, marHigh.read, pcIncrement],
    [aluResult.write, marLow.read],
    [x.write, marOffset.read],
    [marAddOffset],
    [a.write, memoryRead]]),
  instruction .ldy .abx (always [
    [pc.write, mar.read],
    [memoryWrite, marLow.read, aluResult.read, pcIncrement],
    [pc.write, mar.read],
    [memoryWrite, marHigh.read, pcIncrement],
    [aluResult.write, marLow.read],
    [x.write, marOffset.read],
    [marAddOffset],
    [memoryWrite, y.read, statusAnalyzer.read]]),
  instruction .sty .abx (always [
    [pc.write, mar.read],
    [memoryWrite, marLow.read, aluResult.read, pcIncrement],
    [pc.write, mar.read],
    [memoryWrite, marHigh.read, pcIncrement],
    [aluResult.write, marLow.read],
    [x.write, marOffset.read],
    [marAddOffset],
    [y.write, memoryRead]])]

/-! ## Absolute X-Indexed ALU Instructions -/

def absoluteXAlu : List Instruction := [
  instruction .adc .abx (always [
    [pc.write, mar.read],
    [memoryWrite, marLow.read, aluResult.read, pcIncrement],
    [pc.write, mar.read],
    [memoryWrite, marHigh.read, pcIncrement],
    [aluResult.write, marLow.read],
    [x.write, marOffset.read],
    [marAddOffset],
    [memoryWrite, aluRhs.read],
    [a.write, aluLhs.read],
    [aluOpcodeBit 0],
    [aluResult.write, a.read, statusAnalyzer.read]]),
  instruction .sbc .abx (always [
    [pc.write, mar.read],
    [memoryWrite, marLow.read, aluResult.read, pcIncrement],
    [pc.write, mar.read],
    [memoryWrite, marHigh.read, pcIncrement],
    [aluResult.write, marLow.read],
    [x.write, marOffset.read],
    [marAddOffset],
    [memoryWrite, aluRhs.read],
    [a.write, aluLhs.read],
    [aluOpcodeBit 1],
    [aluResult.write, a.read, statusAnalyzer.read]]),
  instruction .and .abx (always [
    [pc.write, mar.read],
    [memoryWrite, marLow.read, aluResult.read, pcIncrement],
    [pc.write, mar.read],
    [memoryWrite, marHigh.read, pcIncrement],
    [aluResult.write, marLow.read],
    [x.write, marOffset.read],
    [marAddOffset],
    [memoryWrite, aluRhs.read],
    [a.write, aluLhs.read],
    [aluOpcodeBit 2],
    [aluResult.write, a.read, statusAnalyzer.read]]),
  instruction .ora .abx (always [
    [pc.write, mar.read],
    [memoryWrite, marLow.read, aluResult.read, pcIncrement],
    [pc.write, mar.read],
    [memoryWrite, marHigh.read, pcIncrement],
    [aluResult.write, marLow.read],
    [x.write, marOffset.read],
    [marAddOffset],
    [memoryWrite, aluRhs.read],
    [a.write, aluLhs.read],
    [aluOpcodeBit 0, aluOpcodeBit 2],
    [aluResult.write, a.read, statusAnalyzer.read]]),
  instruction .eor .abx (always [
    [pc.write, mar.read],
    [memoryWrite, marLow.read, aluResult.read, pcIncrement],
    [pc.write, mar.read],
    [memoryWrite, marHigh.read, pcIncrement],
    [aluResult.write, marLow.read],
    [x.write, marOffset.read],
    [marAddOffset],
    [memoryWrite, aluRhs.read],
    [a.write, aluLhs.read],
    [aluOpcodeBit 1, aluOpcodeBit 2],
    [aluResult.write, a.read, statusAnalyzer.read]]),
  instruction .cmp .abx (always [
    [pc.write, mar.read],
    [memoryWrite, marLow.read, aluResult.read, pcIncrement],
    [pc.write, mar.read],
    [memoryWrite, marHigh.read, pcIncrement],
    [aluResult.write, marLow.read],
    [x.write, marOffset.read],
    [marAddOffset],
    [memoryWrite, aluRhs.read],
    [a.write, aluLhs.read],
    [carry.set],
    [aluOpcodeBit 1],
    [aluResult.write, statusAnalyzer.read]])]

/-! ## Absolute X-Indexed Shift Instructions (read-modify-write) -/

def absoluteXShift : List Instruction := [
  instruction .asl .abx (always [
    [pc.write, mar.read],
    [memoryWrite, marLow.read, aluResult.read, pcIncrement],
    [pc.write, mar.read],
    [memoryWrite, marHigh.read, pcIncrement],
    [aluResult.write, marLow.read],
    [x.write, marOffset.read],
    [marAddOffset],
    [memoryWrite, aluLhs.read],
    [aluOpcodeBit 0, aluOpcodeBit 1, aluOpcodeBit 2],
    [aluResult.write, memoryRead, statusAnalyzer.read]]),
  instruction .lsr .abx (always [
    [pc.write, mar.read],
    [memoryWrite, marLow.read, aluResult.read, pcIncrement],
    [pc.write, mar.read],
    [memoryWrite, marHigh.read, pcIncrement],
    [aluResult.write, marLow.read],
    [x.write, marOffset.read],
    [marAddOffset],
    [memoryWrite, aluLhs.read],
    [aluOpcodeBit 3],
    [aluResult.write, memoryRead, statusAnalyzer.read]]),
  instruction .rol .abx (always [
    [pc.write, mar.read],
    [memoryWrite, marLow.read, aluResult.read, pcIncrement],
    [pc.write, mar.read],
    [memoryWrite, marHigh.read, pcIncrement],
    [aluResult.write, marLow.read],
    [x.write, marOffset.read],
    [marAddOffset],
    [memoryWrite, aluLhs.read],
    [aluOpcodeBit 0, aluOpcodeBit 3],
    [aluResult.write, memoryRead, statusAnalyzer.read]]),
  instruction .ror .abx (always [
    [pc.write, mar.read],
    [memoryWrite, marLow.read, aluResult.read, pcIncrement],
    [pc.write, mar.read],
    [memoryWrite, marHigh.read, pcIncrement],
    [aluResult.write, marLow.read],
    [x.write, marOffset.read],
    [marAddOffset],
    [memoryWrite, aluLhs.read],
    [aluOpcodeBit 1, aluOpcodeBit 3],
    [aluResult.write, memoryRead, statusAnalyzer.read]])]

/-! ## Absolute X-Indexed Inc/Dec Instructions (read-modify-write) -/

def absoluteXIncDec : List Instruction := [
  instruction .inc .abx (always [
    [pc.write, mar.read],
    [memoryWrite, marLow.read, aluResult.read, pcIncrement],
    [pc.write, mar.read],
    [memoryWrite, marHigh.read, pcIncrement],
    [aluResult.write, marLow.read],
    [x.write, marOffset.read],
    [marAddOffset],
    [memoryWrite, aluLhs.read],
    [aluOpcodeBit 0, aluOpcodeBit 1],
    [aluResult.write, memoryRead, statusAnalyzer.read]]),
  instruction .dec .abx (always [
    [pc.write, mar.read],
    [memoryWrite, marLow.read, aluResult.read, pcIncrement],
    [pc.write, mar.read],
    [memoryWrite, marHigh.read, pcIncrement],
    [aluResult.write, marLow.read],
    [x.write, marOffset.read],
    [marAddOffset],
    [memoryWrite, aluLhs.read],
    [aluOpcodeBit 0, aluOpcodeBit 1, aluOpcodeBit 3],
    [aluResult.write, memoryRead, statusAnalyzer.read]])]

/-! ## Absolute Y-Indexed Load/Store Instructions -/

def absoluteYLoadStore : List Instruction := [
  instruction .lda .aby (always [
    [pc.write, mar.read],
    [memoryWrite, marLow.read, aluResult.read, pcIncrement],
    [pc.write, mar.read],
    [memoryWrite, marHigh.read, pcIncrement],
    [aluResult.write, marLow.read],
    [y.write, marOffset.read],
    [marAddOffset],
    [memoryWrite, a.read, statusAnalyzer.read]]),
  instruction .sta .aby (always [
    [pc.write, mar.read],
    [memoryWrite, marLow.read, aluResult.read, pcIncrement],
    [pc.write, mar.read],
    [memoryWrite, marHigh.read, pcIncrement],
    [aluResult.write, marLow.read],
    [y.write, marOffset.read],
    [marAddOffset],
    [a.write, memoryRead]]),
  instruction .ldx .aby (always [
    [pc.write, mar.read],
    [memoryWrite, marLow.read, aluResult.read, pcIncrement],
    [pc.write, mar.read],
    [memoryWrite, marHigh.read, pcIncrement],
    [aluResult.write, marLow.read],
    [y.write, marOffset.read],
    [marAddOffset],
    [memoryWrite, x.read, statusAnalyzer.read]]),
  instruction .stx .aby (always [
    [pc.write, mar.read],
    [memoryWrite, marLow.read, aluResult.read, pcIncrement],
    [pc.write, mar.read],
    [memoryWrite, marHigh.read, pcIncrement],
    [aluResult.write, marLow.read],
    [y.write, marOffset.read],
    [marAddOffset],
    [x.write, memoryRead]])]

/-! ## Absolute Y-Indexed ALU Instructions -/

def absoluteYAlu : List Instruction := [
  instruction .adc .aby (always [
    [pc.write, mar.read],
    [memoryWrite, marLow.read, aluResult.read, pcIncrement],
    [pc.write, mar.read],
    [memoryWrite, marHigh.read, pcIncrement],
    [aluResult.write, marLow.read],
    [y.write, marOffset.read],
    [marAddOffset],
    [memoryWrite, aluRhs.read],
    [a.write, aluLhs.read],
    [aluOpcodeBit 0],
    [aluResult.write, a.read, statusAnalyzer.read]]),
  instruction .sbc .aby (always [
    [pc.write, mar.read],
    [memoryWrite, marLow.read, aluResult.read, pcIncrement],
    [pc.write, mar.read],
    [memoryWrite, marHigh.read, pcIncrement],
    [aluResult.write, marLow.read],
    [y.write, marOffset.read],
    [marAddOffset],
    [memoryWrite, aluRhs.read],
    [a.write, aluLhs.read],
    [aluOpcodeBit 1],
    [aluResult.write, a.read, statusAnalyzer.read]]),
  instruction .and .aby (always [
    [pc.write, mar.read],
    [memoryWrite, marLow.read, aluResult.read, pcIncrement],
    [pc.write, mar.read],
    [memoryWrite, marHigh.read, pcIncrement],
    [aluResult.write, marLow.read],
    [y.write, marOffset.read],
    [marAddOffset],
    [memoryWrite, aluRhs.read],
    [a.write, aluLhs.read],
    [aluOpcodeBit 2],
    [aluResult.write, a.read, statusAnalyzer.read]]),
  instruction .ora .aby (always [
    [pc.write, mar.read],
    [memoryWrite, marLow.read, aluResult.read, pcIncrement],
    [pc.write, mar.read],
    [memoryWrite, marHigh.read, pcIncrement],
    [aluResult.write, marLow.read],
    [y.write, marOffset.read],
    [marAddOffset],
    [memoryWrite, aluRhs.read],
    [a.write, aluLhs.read],
    [aluOpcodeBit 0, aluOpcodeBit 2],
    [aluResult.write, a.read, statusAnalyzer.read]]),
  instruction .eor .aby (always [
    [pc.write, mar.read],
    [memoryWrite, marLow.read, aluResult.read, pcIncrement],
    [pc.write, mar.read],
    [memoryWrite, marHigh.read, pcIncrement],
    [aluResult.write, marLow.read],
    [y.write, marOffset.read],
    [marAddOffset],
    [memoryWrite, aluRhs.read],
    [a.write, aluLhs.read],
    [aluOpcodeBit 1, aluOpcodeBit 2],
    [aluResult.write, a.read, statusAnalyzer.read]]),
  instruction .cmp .aby (always [
    [pc.write, mar.read],
    [memoryWrite, marLow.read, aluResult.read, pcIncrement],
    [pc.write, mar.read],
    [memoryWrite, marHigh.read, pcIncrement],
    [aluResult.write, marLow.read],
    [y.write, marOffset.read],
    [marAddOffset],
    [memoryWrite, aluRhs.read],
    [a.write, aluLhs.read],
    [carry.set],
    [aluOpcodeBit 1],
    [aluResult.write, statusAnalyzer.read]])]

/-! ## Indexed Indirect (IZX) Instructions -/

def indexedIndirect : List Instruction := [
  instruction .lda .izx (always [
    [pc.write, mar.read],
    [memoryWrite, marLow.read, pcIncrement],
    [x.write, marOffset.read],
    [marAddOffset],
    [marHigh.reset],
    [memoryWrite, aluResult.read],
    [marIncrement],
    [marHigh.reset],
    [memoryWrite, marHigh.read],
    [aluResult.write, marLow.read],
    [memoryWrite, a.read, statusAnalyzer.read]]),
  instruction .sta .izx (always [
    [pc.write, mar.read],
    [memoryWrite, marLow.read, pcIncrement],
    [x.write, marOffset.read],
    [marAddOffset],
    [marHigh.reset],
    [memoryWrite, aluResult.read],
    [marIncrement],
    [marHigh.reset],
    [memoryWrite, marHigh.read],
    [aluResult.write, marLow.read],
    [a.write, memoryRead]]),
  instruction .adc .izx (always [
    [pc.write, mar.read],
    [memoryWrite, marLow.read, pcIncrement],
    [x.write, marOffset.read],
    [marAddOffset],
    [marHigh.reset],
    [memoryWrite, aluResult.read],
    [marIncrement],
    [marHigh.reset],
    [memoryWrite, marHigh.read],
    [aluResult.write, marLow.read],
    [memoryWrite, aluRhs.read],
    [a.write, aluLhs.read],
    [aluOpcodeBit 0],
    [aluResult.write, a.read, statusAnalyzer.read]]),
  instruction .sbc .izx (always [
    [pc.write, mar.read],
    [memoryWrite, marLow.read, pcIncrement],
    [x.write, marOffset.read],
    [marAddOffset],
    [marHigh.reset],
    [memoryWrite, aluResult.read],
    [marIncrement],
    [marHigh.reset],
    [memoryWrite, marHigh.read],
    [aluResult.write, marLow.read],
    [memoryWrite, aluRhs.read],
    [a.write, aluLhs.read],
    [aluOpcodeBit 1],
    [aluResult.write, a.read, statusAnalyzer.read]]),
  instruction .and .izx (always [
    [pc.write, mar.read],
    [memoryWrite, marLow.read, pcIncrement],
    [x.write, marOffset.read],
    [marAddOffset],
    [marHigh.reset],
    [memoryWrite, aluResult.read],
    [marIncrement],
    [marHigh.reset],
    [memoryWrite, marHigh.read],
    [aluResult.write, marLow.read],
    [memoryWrite, aluRhs.read],
    [a.write, aluLhs.read],
    [aluOpcodeBit 2],
    [aluResult.write, a.read, statusAnalyzer.read]]),
  instruction .ora .izx (always [
    [pc.write, mar.read],
    [memoryWrite, marLow.read, pcIncrement],
    [x.write, marOffset.read],
    [marAddOffset],
    [marHigh.reset],
    [memoryWrite, aluResult.read],
    [marIncrement],
    [marHigh.reset],
    [memoryWrite, marHigh.read],
    [aluResult.write, marLow.read],
    [memoryWrite, aluRhs.read],
    [a.write, aluLhs.read],
    [aluOpcodeBit 0, aluOpcodeBit 2],
    [aluResult.write, a.read, statusAnalyzer.read]]),
  instruction .eor .izx (always [
    [pc.write, mar.read],
    [memoryWrite, marLow.read, pcIncrement],
    [x.write, marOffset.read],
    [marAddOffset],
    [marHigh.reset],
    [memoryWrite, aluResult.read],
    [marIncrement],
    [marHigh.reset],
    [memoryWrite, marHigh.read],
    [aluResult.write, marLow.read],
    [memoryWrite, aluRhs.read],
    [a.write, aluLhs.read],
    [aluOpcodeBit 1, aluOpcodeBit 2],
    [aluResult.write, a.read, statusAnalyzer.read]]),
  instruction .cmp .izx (always [
    [pc.write, mar.read],
    [memoryWrite, marLow.read, pcIncrement],
    [x.write, marOffset.read],
    [marAddOffset],
    [marHigh.reset],
    [memoryWrite, aluResult.read],
    [marIncrement],
    [marHigh.reset],
    [memoryWrite, marHigh.read],
    [aluResult.write, marLow.read],
    [memoryWrite, aluRhs.read],
    [a.write, aluLhs.read],
    [carry.set],
    [aluOpcodeBit 1],
    [aluResult.write, statusAnalyzer.read]])]

/-! ## Indirect Indexed (IZY) Instructions -/

def indirectIndexed : List Instruction := [
  instruction .lda .izy (always [
    [pc.write, mar.read],
    [memoryWrite, marLow.read, pcIncrement],
    [marHigh.reset],
    [memoryWrite, aluResult.read],
    [marIncrement],
    [marHigh.reset],
    [memoryWrite, marHigh.read],
    [aluResult.write, marLow.read],
    [y.write, marOffset.read],
    [marAddOffset],
    [memoryWrite, a.read, statusAnalyzer.read]]),
  instruction .sta .izy (always [
    [pc.write, mar.read],
    [memoryWrite, marLow.read, pcIncrement],
    [marHigh.reset],
    [memoryWrite, aluResult.read],
    [marIncrement],
    [marHigh.reset],
    [memoryWrite, marHigh.read],
    [aluResult.write, marLow.read],
    [y.write, marOffset.read],
    [marAddOffset],
    [a.write, memoryRead]]),
  instruction .adc .izy (always [
    [pc.write, mar.read],
    [memoryWrite, marLow.read, pcIncrement],
    [marHigh.reset],
    [memoryWrite, aluResult.read],
    [marIncrement],
    [marHigh.reset],
    [memoryWrite, marHigh.read],
    [aluResult.write, marLow.read],
    [y.write, marOffset.read],
    [marAddOffset],
    [memoryWrite, aluRhs.read],
    [a.write, aluLhs.read],
    [aluOpcodeBit 0],
    [aluResult.write, a.read, statusAnalyzer.read]]),
  instruction .sbc .izy (always [
    [pc.write, mar.read],
    [memoryWrite, marLow.read, pcIncrement],
    [marHigh.reset],
    [memoryWrite, aluResult.read],
    [marIncrement],
    [marHigh.reset],
    [memoryWrite, marHigh.read],
    [aluResult.write, marLow.read],
    [y.write, marOffset.read],
    [marAddOffset],
    [memoryWrite, aluRhs.read],
    [a.write, aluLhs.read],
    [aluOpcodeBit 1],
    [aluResult.write, a.read, statusAnalyzer.read]]),
  instruction .and .izy (always [
    [pc.write, mar.read],
    [memoryWrite, marLow.read, pcIncrement],
    [marHigh.reset],
    [memoryWrite, aluResult.read],
    [marIncrement],
    [marHigh.reset],
    [memoryWrite, marHigh.read],
    [aluResult.write, marLow.read],
    [y.write, marOffset.read],
    [marAddOffset],
    [memoryWrite, aluRhs.read],
    [a.write, aluLhs.read],
    [aluOpcodeBit 2],
    [aluResult.write, a.read, statusAnalyzer.read]]),
  instruction .ora .izy (always [
    [pc.write, mar.read],
    [memoryWrite, marLow.read, pcIncrement],
    [marHigh.reset],
    [memoryWrite, aluResult.read],
    [marIncrement],
    [marHigh.reset],
    [memoryWrite, marHigh.read],
    [aluResult.write, marLow.read],
    [y.write, marOffset.read],
    [marAddOffset],
    [memoryWrite, aluRhs.read],
    [a.write, aluLhs.read],
    [aluOpcodeBit 0, aluOpcodeBit 2],
    [aluResult.write, a.read, statusAnalyzer.read]]),
  instruction .eor .izy (always [
    [pc.write, mar.read],
    [memoryWrite, marLow.read, pcIncrement],
    [marHigh.reset],
    [memoryWrite, aluResult.read],
    [marIncrement],
    [marHigh.reset],
    [memoryWrite, marHigh.read],
    [aluResult.write, marLow.read],
    [y.write, marOffset.read],
    [marAddOffset],
    [memoryWrite, aluRhs.read],
    [a.write, aluLhs.read],
    [aluOpcodeBit 1, aluOpcodeBit 2],
    [aluResult.write, a.read, statusAnalyzer.read]]),
  instruction .cmp .izy (always [
    [pc.write, mar.read],
    [memoryWrite, marLow.read, pcIncrement],
    [marHigh.reset],
    [memoryWrite, aluResult.read],
    [marIncrement],
    [marHigh.reset],
    [memoryWrite, marHigh.read],
    [aluResult.write, marLow.read],
    [y.write, marOffset.read],
    [marAddOffset],
    [memoryWrite, aluRhs.read],
    [a.write, aluLhs.read],
    [carry.set],
    [aluOpcodeBit 1],
    [aluResult.write, statusAnalyzer.read]])]

/-! ## Stack Operations -/

def stackOperations : List Instruction := [
  instruction .pha .imp (always [
    [sp.write, marLow.read, marStackPage],
    [a.write, memoryRead, spDecrement]]),
  instruction .pla .imp (always [
    [spIncrement],
    [sp.write, marLow.read, marStackPage],
    [memoryWrite, a.read, statusAnalyzer.read]]),
  instruction .php .imp (always [
    [sp.write, marLow.read, marStackPage],
    [status.write, memoryRead, spDecrement]]),
  instruction .plp .imp (always [
    [spIncrement],
    [sp.write, marLow.read, marStackPage],
    [memoryWrite, status.read]]),
  instruction .tsx .imp (always [[sp.write, x.read, statusAnalyzer.read]]),
  instruction .txs .imp (always [[x.write, sp.read]]),
  instruction .jsr .abs (always [
    [pc.write, mar.read],
    [memoryWrite, marLow.read, aluResult.read, pcIncrement],
    [pc.write, mar.read],
    [memoryWrite, marHigh.read, pcIncrement],
    [aluResult.write, marLow.read],
    [mar.write, tmp.read],
    [sp.write, marLow.read, marStackPage],
    [pcHigh.write, memoryRead, spDecrement],
    [sp.write, marLow.read, marStackPage],
    [pcLow.write, memoryRead, spDecrement],
    [tmp.write, pc.read]]),
  instruction .rts .imp (always [
    [spIncrement],
    [sp.write, marLow.read, marStackPage],
    [memoryWrite, pcLow.read],
    [spIncrement],
    [sp.write, marLow.read, marStackPage],
    [memoryWrite, pcHigh.read]]),
  instruction .brk .imp (always [
    [interruptDisable.set],
    [sp.write, marLow.read, marStackPage],
    [pcHigh.write, memoryRead, spDecrement],
    [sp.write, marLow.read, marStackPage],
    [pcLow.write, memoryRead, spDecrement],
    [sp.write, marLow.read, marStackPage],
    [brk.set],
    [status.write, memoryRead, spDecrement],
    [brk.clear],
    [marInterruptVector],
    [memoryWrite, pcLow.read],
    [marIncrement],
    [memoryWrite, pcHigh.read]]),
  instruction .irq .imp (always [
    [interruptDisable.set],
    [sp.write, marLow.read, marStackPage],
    [pcHigh.write, memoryRead, spDecrement],
    [sp.write, marLow.read, marStackPage],
    [pcLow.write, memoryRead, spDecrement],
    [sp.write, marLow.read, marStackPage],
    [brk.clear],
    [status.write, memoryRead, spDecrement],
    [marInterruptVector],
    [memoryWrite, pcLow.read],
    [marIncrement],
    [memoryWrite, pcHigh.read]]),
  instruction .rti .imp (always [
    [spIncrement],
    [sp.write, marLow.read, marStackPage],
    [memoryWrite, status.read],
    [spIncrement],
    [sp.write, marLow.read, marStackPage],
    [memoryWrite, pcLow.read],
    [spIncrement],
    [sp.write, marLow.read, marStackPage],
    [memoryWrite, pcHigh.read]]),
  instruction .clc .imp (always [[carry.clear]]),
  instruction .sec .imp (always [[carry.set]]),
  instruction .clv .imp (always [[overflow.clear]])]

/-- `BuildIrataInstructionSet`. -/
def instructionSet : InstructionSet where
  fetchPreamble := fetchPreamble
  instructions := List.flatten [
    immediateAndImplied,
    zeroPageLoadStore,
    zeroPageAlu,
    zeroPageShift,
    absoluteLoadStore,
    absoluteAlu,
    absoluteShift,
    registerIncDec,
    memoryIncDec,
    zeroPageXLoadStore,
    zeroPageXAlu,
    zeroPageXShift,
    zeroPageXIncDec,
    zeroPageYLoadStore,
    absoluteXLoadStore,
    absoluteXAlu,
    absoluteXShift,
    absoluteXIncDec,
    absoluteYLoadStore,
    absoluteYAlu,
    indexedIndirect,
    indirectIndexed,
    stackOperations]

end Irata2.Microcode.Irata
