import Irata2.Hdl.Control
import Irata2.Isa.Instructions

/-!
# What the instructions do

The mnemonics of the instruction set fall into a few kinds of operation, told apart by the
register they name, the arithmetic function they apply or the status bit they test.
-/

namespace Irata2.Isa

open Hdl

/-- The registers that instructions name. -/
inductive Register
  | a
  | x
  | y
  deriving DecidableEq, Repr

def Register.port : Register → ByteRegister
  | .a => .a
  | .x => .x
  | .y => .y

/-- The functions of the accumulator and an operand. -/
inductive Binary
  | add
  | subtract
  | and
  | or
  | xor
  deriving DecidableEq, Repr

def Binary.code : Binary → Nat
  | .add => 0x1
  | .subtract => 0x2
  | .and => 0x4
  | .or => 0x5
  | .xor => 0x6

/-- The functions of a single operand. -/
inductive Unary
  | increment
  | shiftLeft
  | shiftRight
  | rotateLeft
  | rotateRight
  | decrement
  deriving DecidableEq, Repr

def Unary.code : Unary → Nat
  | .increment => 0x3
  | .shiftLeft => 0x7
  | .shiftRight => 0x8
  | .rotateLeft => 0x9
  | .rotateRight => 0xA
  | .decrement => 0xB

/-- The opcode bits of an arithmetic function. -/
def opcodeBits (code : Nat) : List Control :=
  ((List.finRange 4).filter fun i => code.testBit i.val).map .aluOpcodeBit

def Binary.controls (f : Binary) : List Control := opcodeBits f.code

def Unary.controls (f : Unary) : List Control := opcodeBits f.code

/-- What an instruction does once its addressing mode has found the operand. -/
inductive Action
  | nop
  | halt
  | crash
  | load (r : Register)
  | store (r : Register)
  | accumulate (f : Binary)
  | compare (r : Register)
  | bit
  | modify (r : Register) (f : Unary)
  | modifyMemory (f : Unary)
  | transfer (source target : Register)
  | stackToX
  | xToStack
  | pushAccumulator
  | pushStatus
  | pullAccumulator
  | pullStatus
  | assign (f : StatusBit) (v : Bool)
  | branch
  | skip
  | jump
  | jumpIndirect
  | pass
  | call
  | ret
  | brk
  | irq
  | rti
  deriving DecidableEq, Repr

namespace Mnemonic

/-- The status bit and the value under which a conditional instruction is taken. -/
def condition : Mnemonic → Option (StatusBit × Bool)
  | jeq => some (.zero, true)
  | beq => some (.zero, true)
  | bne => some (.zero, false)
  | bcs => some (.carry, true)
  | bcc => some (.carry, false)
  | bmi => some (.negative, true)
  | bpl => some (.negative, false)
  | bvs => some (.overflow, true)
  | bvc => some (.overflow, false)
  | _ => none

/-- A shift or rotation works on the accumulator when it has no operand. -/
def shift (f : Unary) : AddressingMode → Action
  | .imp => .modify .a f
  | _ => .modifyMemory f

/-- The action of an instruction that is unconditional or taken. -/
def action (m : Mnemonic) (mode : AddressingMode) : Action :=
  match m with
  | hlt => .halt
  | nop => .nop
  | crs => .crash
  | lda => .load .a
  | ldx => .load .x
  | ldy => .load .y
  | sta => .store .a
  | stx => .store .x
  | sty => .store .y
  | adc => .accumulate .add
  | sbc => .accumulate .subtract
  | and => .accumulate .and
  | ora => .accumulate .or
  | eor => .accumulate .xor
  | cmp => .compare .a
  | cpx => .compare .x
  | cpy => .compare .y
  | bit => .bit
  | asl => shift .shiftLeft mode
  | lsr => shift .shiftRight mode
  | rol => shift .rotateLeft mode
  | ror => shift .rotateRight mode
  | inc => .modifyMemory .increment
  | dec => .modifyMemory .decrement
  | inx => .modify .x .increment
  | dex => .modify .x .decrement
  | iny => .modify .y .increment
  | dey => .modify .y .decrement
  | tax => .transfer .a .x
  | txa => .transfer .x .a
  | tay => .transfer .a .y
  | tya => .transfer .y .a
  | tsx => .stackToX
  | txs => .xToStack
  | pha => .pushAccumulator
  | php => .pushStatus
  | pla => .pullAccumulator
  | plp => .pullStatus
  | clc => .assign .carry false
  | sec => .assign .carry true
  | clv => .assign .overflow false
  | beq | bne | bcs | bcc | bmi | bpl | bvs | bvc => .branch
  | jeq => .jump
  | jmp => if mode = .ind then .jumpIndirect else .jump
  | jsr => .call
  | rts => .ret
  | brk => .brk
  | irq => .irq
  | rti => .rti

/-- The action of a conditional instruction that is not taken. -/
def otherwise : Mnemonic → Action
  | jeq => .pass
  | _ => .skip

end Mnemonic

end Irata2.Isa
