import Irata2.Base.Types

/-!
# The control signals of the CPU

The hardware description is a fixed tree of components, and a control signal is named by its path
in that tree.  A `Control` is such a path, split into the component that owns the control and the
control's own name.  `cpuControls` lists every control in the order in which `Cpu::visit` reaches
them, which is the order of the bits of a control word.
-/

namespace Irata2.Hdl

/-- The byte registers and byte ports on the data bus. -/
inductive ByteRegister
  | a
  | x
  | y
  | sp
  | aluLhs
  | aluRhs
  | aluResult
  | pcLow
  | pcHigh
  | pcSignedOffset
  | status
  | statusAnalyzer
  | ir
  | marLow
  | marHigh
  | marOffset
  deriving DecidableEq, Repr

/-- The word registers on the address bus. -/
inductive WordRegister
  | tmp
  | pc
  | mar
  deriving DecidableEq, Repr

/-- The named bits of the status register. -/
inductive StatusBit
  | negative
  | overflow
  | unused
  | brk
  | decimal
  | interruptDisable
  | zero
  | carry
  deriving DecidableEq, Repr

namespace StatusBit

def bitIndex : StatusBit → Nat
  | negative => 7
  | overflow => 6
  | unused => 5
  | brk => 4
  | decimal => 3
  | interruptDisable => 2
  | zero => 1
  | carry => 0

def name : StatusBit → String
  | negative => "negative"
  | overflow => "overflow"
  | unused => "unused"
  | brk => "break"
  | decimal => "decimal"
  | interruptDisable => "interrupt_disable"
  | zero => "zero"
  | carry => "carry"

theorem bitIndex_lt (f : StatusBit) : f.bitIndex < 8 := by
  cases f <;> decide

theorem bitIndex_injective : Function.Injective bitIndex := by
  intro f g h
  cases f <;> cases g <;> first | rfl | exact absurd h (by decide)

end StatusBit

-- the opcode of the arithmetic unit has four bits
instance neZero_four : NeZero 4 := ⟨by decide⟩

/-- A control signal. -/
inductive Control
  | halt
  | crash
  | irqLine
  | writeByte (r : ByteRegister)
  | readByte (r : ByteRegister)
  | resetByte (r : ByteRegister)
  | writeWord (r : WordRegister)
  | readWord (r : WordRegister)
  | resetWord (r : WordRegister)
  | spIncrement
  | spDecrement
  | aluOpcodeBit (i : Fin 4)
  | pcIncrement
  | pcAddSignedOffset
  | setStatus (f : StatusBit)
  | clearStatus (f : StatusBit)
  | instructionStart
  | scReset
  | scIncrement
  | scDecrement
  | ipcLatch
  | memoryWrite
  | memoryRead
  | marAddOffset
  | marIncrement
  | marStackPage
  | marInterruptVector
  deriving DecidableEq, Repr

abbrev ByteRegister.write (r : ByteRegister) : Control := .writeByte r

abbrev ByteRegister.read (r : ByteRegister) : Control := .readByte r

abbrev ByteRegister.reset (r : ByteRegister) : Control := .resetByte r

abbrev WordRegister.write (r : WordRegister) : Control := .writeWord r

abbrev WordRegister.read (r : WordRegister) : Control := .readWord r

abbrev WordRegister.reset (r : WordRegister) : Control := .resetWord r

abbrev StatusBit.set (f : StatusBit) : Control := .setStatus f

abbrev StatusBit.clear (f : StatusBit) : Control := .clearStatus f

/-- The component that owns a control.  The three controls of the CPU itself have no component
prefix, and each counts as a component of its own. -/
inductive Owner
  | halt
  | crash
  | irqLine
  | byteRegister (r : ByteRegister)
  | wordRegister (r : WordRegister)
  | alu
  | statusBit (f : StatusBit)
  | controller
  | sc
  | ipc
  | memory
  deriving DecidableEq, Repr

/-- The last segment of a control path that has more than one segment. -/
inductive Operation
  | write
  | read
  | reset
  | increment
  | decrement
  | opcodeBit (i : Fin 4)
  | addSignedOffset
  | set
  | clear
  | instructionStart
  | latch
  | addOffset
  | stackPage
  | interruptVector
  deriving DecidableEq, Repr

namespace ByteRegister

def path : ByteRegister → String
  | a => "a"
  | x => "x"
  | y => "y"
  | sp => "sp"
  | aluLhs => "alu.lhs"
  | aluRhs => "alu.rhs"
  | aluResult => "alu.result"
  | pcLow => "pc.low"
  | pcHigh => "pc.high"
  | pcSignedOffset => "pc.signed_offset"
  | status => "status"
  | statusAnalyzer => "status.analyzer"
  | ir => "controller.ir"
  | marLow => "memory.mar.low"
  | marHigh => "memory.mar.high"
  | marOffset => "memory.mar.offset"

end ByteRegister

namespace WordRegister

def path : WordRegister → String
  | tmp => "tmp"
  | pc => "pc"
  | mar => "memory.mar"

end WordRegister

namespace Owner

def path : Owner → String
  | halt => "halt"
  | crash => "crash"
  | irqLine => "irq_line"
  | byteRegister r => r.path
  | wordRegister r => r.path
  | alu => "alu"
  | statusBit f => "status." ++ f.name
  | controller => "controller"
  | sc => "controller.sc"
  | ipc => "controller.ipc"
  | memory => "memory"

end Owner

namespace Operation

def name : Operation → String
  | write => "write"
  | read => "read"
  | reset => "reset"
  | increment => "increment"
  | decrement => "decrement"
  | opcodeBit i => "opcode_bit_" ++ toString i.val
  | addSignedOffset => "add_signed_offset"
  | set => "set"
  | clear => "clear"
  | instructionStart => "instruction_start"
  | latch => "latch"
  | addOffset => "add_offset"
  | stackPage => "stack_page"
  | interruptVector => "interrupt_vector"

end Operation

/-- The two buses. -/
inductive BusType
  | data
  | address
  deriving DecidableEq, Repr

namespace Control

def owner : Control → Owner
  | halt => .halt
  | crash => .crash
  | irqLine => .irqLine
  | writeByte r | readByte r | resetByte r => .byteRegister r
  | writeWord r | readWord r | resetWord r => .wordRegister r
  | spIncrement | spDecrement => .byteRegister .sp
  | aluOpcodeBit _ => .alu
  | pcIncrement | pcAddSignedOffset => .wordRegister .pc
  | setStatus f | clearStatus f => .statusBit f
  | instructionStart => .controller
  | scReset | scIncrement | scDecrement => .sc
  | ipcLatch => .ipc
  | memoryWrite | memoryRead => .memory
  | marAddOffset | marIncrement | marStackPage | marInterruptVector => .wordRegister .mar

def operation : Control → Option Operation
  | halt | crash | irqLine => none
  | writeByte _ | writeWord _ | memoryWrite => some .write
  | readByte _ | readWord _ | memoryRead => some .read
  | resetByte _ | resetWord _ | scReset => some .reset
  | spIncrement | pcIncrement | scIncrement | marIncrement => some .increment
  | spDecrement | scDecrement => some .decrement
  | aluOpcodeBit i => some (.opcodeBit i)
  | pcAddSignedOffset => some .addSignedOffset
  | setStatus _ => some .set
  | clearStatus _ => some .clear
  | instructionStart => some .instructionStart
  | ipcLatch => some .latch
  | marAddOffset => some .addOffset
  | marStackPage => some .stackPage
  | marInterruptVector => some .interruptVector

def path (c : Control) : String :=
  match c.operation with
  | none => c.owner.path
  | some op => c.owner.path ++ "." ++ op.name

/-- The phase in which the control may be read. -/
def phase : Control → TickPhase
  | writeByte _ | writeWord _ | memoryWrite => .write
  | readByte _ | readWord _ | memoryRead => .read
  | _ => .process

/-- Whether the Clear phase releases the control; the interrupt line is latched. -/
def autoReset : Control → Bool
  | irqLine => false
  | _ => true

/-- The bus a read or write control is attached to. -/
def bus : Control → Option BusType
  | writeByte _ | readByte _ | memoryWrite | memoryRead => some .data
  | writeWord _ | readWord _ => some .address
  | _ => none

end Control

/-- The controls of a byte register, in visiting order. -/
def byteRegisterControls (r : ByteRegister) : List Control := [r.write, r.read, r.reset]

def wordRegisterControls (r : WordRegister) : List Control := [r.write, r.read, r.reset]

def statusControls (f : StatusBit) : List Control := [f.set, f.clear]

/-- Every control of the CPU, in the order of `Cpu::visit`. -/
def cpuControls : List Control :=
  List.flatten [
    [.halt, .crash, .irqLine],
    byteRegisterControls .a,
    byteRegisterControls .x,
    byteRegisterControls .y,
    byteRegisterControls .sp, [.spIncrement, .spDecrement],
    wordRegisterControls .tmp,
    byteRegisterControls .aluLhs,
    byteRegisterControls .aluRhs,
    byteRegisterControls .aluResult,
    [.aluOpcodeBit 0, .aluOpcodeBit 1, .aluOpcodeBit 2, .aluOpcodeBit 3],
    wordRegisterControls .pc,
    byteRegisterControls .pcLow,
    byteRegisterControls .pcHigh,
    byteRegisterControls .pcSignedOffset, [.pcIncrement, .pcAddSignedOffset],
    byteRegisterControls .status,
    statusControls .negative,
    statusControls .overflow,
    statusControls .unused,
    statusControls .brk,
    statusControls .decimal,
    statusControls .interruptDisable,
    statusControls .zero,
    statusControls .carry,
    byteRegisterControls .statusAnalyzer,
    byteRegisterControls .ir, [.instructionStart],
    [.scReset, .scIncrement, .scDecrement],
    [.ipcLatch],
    [.memoryWrite, .memoryRead],
    wordRegisterControls .mar,
    byteRegisterControls .marLow,
    byteRegisterControls .marHigh,
    byteRegisterControls .marOffset,
    [.marAddOffset, .marIncrement, .marStackPage, .marInterruptVector]]

theorem cpuControls_nodup : cpuControls.Nodup := by
  decide +kernel

theorem mem_cpuControls (c : Control) : c ∈ cpuControls := by
  cases c with
  | writeByte r | readByte r | resetByte r => cases r <;> decide +kernel
  | writeWord r | readWord r | resetWord r => cases r <;> decide +kernel
  | setStatus f | clearStatus f => cases f <;> decide +kernel
  | aluOpcodeBit i => revert i; decide +kernel
  | _ => decide +kernel

theorem cpuControls_length : cpuControls.length = 95 := rfl

example : Control.path (.aluOpcodeBit 2) = "alu.opcode_bit_2" := by decide +kernel

example : Control.path (ByteRegister.marLow.read) = "memory.mar.low.read" := by decide +kernel

end Irata2.Hdl
