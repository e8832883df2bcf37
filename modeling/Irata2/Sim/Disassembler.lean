import Irata2.Isa.Instructions
import Irata2.Sim.DebugSymbols

/-!
# The disassembler

A ROM printed as assembler source: one line for each instruction, with the names of the labels that
the debug symbols give, and a byte directive where no instruction fits.
-/

namespace Irata2.Sim

open Isa Library

/-- A digit in upper case. -/
def hexDigit (n : Nat) : Char := (n % 16).digitChar.toUpper

def formatHexByte (value : Byte) : Text :=
  ['$', hexDigit (value.toNat / 16), hexDigit value.toNat]

def formatHexWord (value : Word) : Text :=
  ['$', hexDigit (value.toNat / 4096), hexDigit (value.toNat / 256), hexDigit (value.toNat / 16),
    hexDigit value.toNat]

/-- `BuildLabelMap`: an address keeps the first name that is met. -/
def buildLabelMap (symbols : Option DebugSymbols) : List (Word × Text) :=
  match symbols with
  | none => []
  | some symbols =>
      symbols.symbols.foldl (fun labels entry =>
        if (OrderedMap.find labels entry.2).isSome then labels
        else labels ++ [(entry.2, entry.1)]) []

structure DisassembleOptions where
  origin : Word := 0x8000
  emitOrg : Bool := true
  emitLabels : Bool := true
  emitAddresses : Bool := false
  emitBytes : Bool := false

def getInstruction (opcode : Byte) : Option InstructionInfo :=
  instructions.find? fun info => info.opcode = opcode

section Format

variable (labels : List (Word × Text))

/-- An address, by its label if it has one. -/
def targetText (target : Word) : Text :=
  (OrderedMap.find labels target).getD (formatHexWord target)

/-- The operand, of which there are as many bytes as the mode takes. -/
def formatOperand (mode : AddressingMode) (bytes : List Byte) (address : Word) : Text :=
  let low := bytes.headD 0
  let word := Word.ofBytes (bytes.tail.headD 0) low
  match mode with
  | .imp => []
  | .imm => '#' :: formatHexByte low
  | .zp => formatHexByte low
  | .zpx => formatHexByte low ++ ",X".toList
  | .zpy => formatHexByte low ++ ",Y".toList
  | .izx => '(' :: formatHexByte low ++ ",X)".toList
  | .izy => '(' :: formatHexByte low ++ "),Y".toList
  | .abs => targetText labels word
  | .abx => targetText labels word ++ ",X".toList
  | .aby => targetText labels word ++ ",Y".toList
  | .ind => '(' :: targetText labels word ++ ")".toList
  -- the sum of an `int` and an `int8_t`, cut to 16 bits
  | .rel => targetText labels (address + 2 + low.signExtend 16)

variable (options : DisassembleOptions)

/-- The address and the bytes behind an instruction. -/
def comment (address : Word) (opcode : Byte) (operands : List Byte) : Text :=
  if options.emitAddresses || options.emitBytes then
    " ;".toList ++ (if options.emitAddresses then ' ' :: formatHexWord address else []) ++
      if options.emitBytes then (opcode :: operands).flatMap fun b => ' ' :: formatHexByte b else []
  else []

def instructionLine (info : InstructionInfo) (operands : List Byte) (address : Word) : Text :=
  let operand := formatOperand labels info.addressingMode operands address
  info.mnemonic.name.toList ++ (if operand.isEmpty then [] else ' ' :: operand) ++
    comment options address info.opcode operands

def byteLine (opcode : Byte) : Text := ".byte ".toList ++ formatHexByte opcode

def labelLine (address : Word) : List Text :=
  if options.emitLabels then
    match OrderedMap.find labels address with
    | some name => [name ++ ":".toList]
    | none => []
  else []

/-- The instruction at the head of the bytes, if all of its operand is there. -/
def decodeAt (opcode : Byte) (rest : List Byte) : Option InstructionInfo :=
  (getInstruction opcode).bind fun info =>
    if info.addressingMode.operands > rest.length then none else some info

/-- The loop of `Disassemble`, line by line. -/
def disassembleFrom (address : Word) : List Byte → List Text
  | [] => []
  | opcode :: rest =>
      labelLine labels options address ++
        match decodeAt opcode rest with
        | none => byteLine opcode :: disassembleFrom (address + 1) rest
        | some info =>
            let size := info.addressingMode.operands
            instructionLine labels options info (rest.take size) address ::
              disassembleFrom (address + 1 + BitVec.ofNat 16 size) (rest.drop size)
termination_by rom => rom.length
decreasing_by
  · simp
  · simp only [List.length_drop, List.length_cons]
    omega

end Format

def orgLine (options : DisassembleOptions) : List Text :=
  if options.emitOrg then [".org ".toList ++ formatHexWord options.origin] else []

/-- `Disassemble` -/
def disassemble (rom : List Byte) (symbols : Option DebugSymbols) (options : DisassembleOptions) :
    Text :=
  (orgLine options ++ disassembleFrom (buildLabelMap symbols) options options.origin rom).flatMap
    (· ++ ['\n'])

/-! ## The instructions of a ROM -/

theorem getInstruction_eq_some {opcode : Byte} {info : InstructionInfo}
    (h : getInstruction opcode = some info) : info ∈ instructions ∧ info.opcode = opcode := by
  have hopcode := List.find?_some h
  exact ⟨List.mem_of_find?_eq_some h, of_decide_eq_true hopcode⟩

/-- No two instructions have one opcode. -/
theorem getInstruction_opcode {info : InstructionInfo} (h : info ∈ instructions) :
    getInstruction info.opcode = some info := by
  have hall : ∀ i ∈ instructions, getInstruction i.opcode = some i := by
    decide +kernel
  exact hall info h

theorem decodeAt_eq_some {info : InstructionInfo} (h : info ∈ instructions) {rest : List Byte}
    (hrest : info.addressingMode.operands ≤ rest.length) :
    decodeAt info.opcode rest = some info := by
  unfold decodeAt
  rw [getInstruction_opcode h]
  exact if_neg (Nat.not_lt.mpr hrest)

end Irata2.Sim
