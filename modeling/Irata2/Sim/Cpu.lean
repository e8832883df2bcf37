import Irata2.Sim.Datapath
import Irata2.Sim.InstructionMemory

/-!
# The CPU simulator

A tick runs the five phases, and in each phase visits the components in the order in which the
constructor registered them.  Controls may be read in their own phase only and buses are written
and read in theirs, so a tick can throw in the middle; the state then stays as it was at the throw.
-/

namespace Irata2.Sim

open Hdl Library Microcode

/-! ## State -/

structure Bus (α : Type) where
  value : Option α
  wroteThisTick : Bool

namespace Bus

variable {α : Type}

def clear : Bus α := ⟨none, false⟩

def write (type : BusType) (phase : TickPhase) (value : α) (b : Bus α) :
    Except SimError (Bus α) :=
  if phase ≠ .write then .error (.busWriteOutsidePhase type)
  else if b.wroteThisTick then .error (.busAlreadyWritten type)
  else .ok ⟨some value, true⟩

def read (type : BusType) (phase : TickPhase) (reader : String) (b : Bus α) :
    Except SimError α :=
  if phase ≠ .read then .error (.busReadOutsidePhase type)
  else
    match b.wroteThisTick, b.value with
    | true, some v => .ok v
    | _, _ => .error (.busReadBeforeWrite type reader)

end Bus

structure DebugTraceEntry where
  cycle : BitVec 64
  instructionAddress : Word
  pc : Word
  ir : Byte
  sc : Byte
  a : Byte
  x : Byte
  status : Byte
  deriving DecidableEq, Repr

/-- The last `depth` instruction starts; nothing is recorded at depth zero. -/
structure DebugTraceBuffer where
  depth : Nat
  entries : List DebugTraceEntry
  deriving DecidableEq, Repr

def DebugTraceBuffer.record (t : DebugTraceBuffer) (e : DebugTraceEntry) : DebugTraceBuffer :=
  if t.depth = 0 then t
  else if t.depth ≤ t.entries.length then { t with entries := t.entries.tail ++ [e] }
  else { t with entries := t.entries ++ [e] }

/-- The registers of the controller that are not on a bus, and its microcode. -/
structure Controller where
  injectInterrupt : Bool
  sc : Byte
  ipc : Word
  instructionMemory : InstructionMemory

structure Cpu where
  datapath : Datapath
  controller : Controller
  asserted : Control → Bool
  dataBus : Bus Byte
  addressBus : Bus Word
  currentPhase : TickPhase
  halted : Bool
  crashed : Bool
  cycleCount : BitVec 64
  ipcValid : Bool
  trace : DebugTraceBuffer

/-- `InstructionRegister::kIrqOpcode` -/
def kIrqOpcode : Byte := 0x00

/-- `InstructionRegister::value`: the multiplexer in front of the stored opcode. -/
def Cpu.irValue (cpu : Cpu) : Byte :=
  if cpu.controller.injectInterrupt then kIrqOpcode else cpu.datapath.ir

abbrev SimM := EStateM SimError Cpu

/-! ## Controls, buses and registers -/

namespace SimM

def ensurePhase (expected : TickPhase) (action : ControlAction) (c : Control) : SimM Unit := do
  if (← get).currentPhase ≠ expected then throw (.controlOutsidePhase action expected c)

/-- `ControlBase::asserted` -/
def asserted (c : Control) : SimM Bool := do
  ensurePhase c.phase .read c
  pure ((← get).asserted c)

/-- Runs a program when the control is asserted. -/
def whenAsserted (c : Control) (x : SimM Unit) : SimM Unit := do
  if ← asserted c then x

/-- `ControlBase::Set` -/
def setControl (c : Control) (v : Bool) : SimM Unit := do
  ensurePhase .control .set c
  modify fun cpu => { cpu with asserted := Function.update cpu.asserted c v }

/-- `ControlBase::Assert` -/
def assertControl (c : Control) : SimM Unit := do
  ensurePhase .control .assert c
  modify fun cpu => { cpu with asserted := Function.update cpu.asserted c true }

def modifyDatapath (f : Datapath → Datapath) : SimM Unit :=
  modify fun cpu => { cpu with datapath := f cpu.datapath }

def modifyController (f : Controller → Controller) : SimM Unit :=
  modify fun cpu => { cpu with controller := f cpu.controller }

def writeDataBus (v : Byte) : SimM Unit := do
  let cpu ← get
  let bus ← MonadExcept.ofExcept (cpu.dataBus.write .data cpu.currentPhase v)
  set { cpu with dataBus := bus }

def writeAddressBus (v : Word) : SimM Unit := do
  let cpu ← get
  let bus ← MonadExcept.ofExcept (cpu.addressBus.write .address cpu.currentPhase v)
  set { cpu with addressBus := bus }

def readDataBus (reader : String) : SimM Byte := do
  let cpu ← get
  MonadExcept.ofExcept (cpu.dataBus.read .data cpu.currentPhase reader)

def readAddressBus (reader : String) : SimM Word := do
  let cpu ← get
  MonadExcept.ofExcept (cpu.addressBus.read .address cpu.currentPhase reader)

/-- `Memory::ReadAt` at the memory address register. -/
def readMemory : SimM Byte := do
  let cpu ← get
  let (v, memory) ← MonadExcept.ofExcept (cpu.datapath.memory.readAt cpu.datapath.mar)
  modifyDatapath fun d => { d with memory := memory }
  pure v

/-- `Memory::WriteAt` at the memory address register. -/
def writeMemory (v : Byte) : SimM Unit := do
  let cpu ← get
  let memory ← MonadExcept.ofExcept (cpu.datapath.memory.writeAt cpu.datapath.mar v)
  modifyDatapath fun d => { d with memory := memory }

end SimM

/-! ## Components -/

inductive Component
  | control (c : Control)
  | dataBus
  | addressBus
  | byteRegister (r : ByteRegister)
  | wordRegister (r : WordRegister)
  | alu
  | statusBit (f : StatusBit)
  | controller
  | sc
  | ipc
  | memory
  deriving DecidableEq, Repr

namespace Component

def byteChildren (r : ByteRegister) : List Component :=
  [.byteRegister r, .control r.write, .control r.read, .control r.reset]

def wordChildren (r : WordRegister) : List Component :=
  [.wordRegister r, .control r.write, .control r.read, .control r.reset]

def statusChildren (f : StatusBit) : List Component :=
  [.statusBit f, .control f.set, .control f.clear]

/-- The children of the CPU, in the order of the `RegisterChild` calls of its constructor. -/
def children : List Component :=
  List.flatten [
    [.control .halt, .control .crash, .control .irqLine, .dataBus, .addressBus],
    byteChildren .a,
    byteChildren .x,
    byteChildren .y,
    byteChildren .sp, [.control .spIncrement, .control .spDecrement],
    wordChildren .tmp,
    [.alu],
    byteChildren .aluLhs,
    byteChildren .aluRhs,
    byteChildren .aluResult,
    [.control (.aluOpcodeBit 0), .control (.aluOpcodeBit 1), .control (.aluOpcodeBit 2),
      .control (.aluOpcodeBit 3)],
    wordChildren .pc,
    byteChildren .pcLow,
    byteChildren .pcHigh,
    byteChildren .pcSignedOffset, [.control .pcIncrement, .control .pcAddSignedOffset],
    byteChildren .status,
    statusChildren .negative,
    statusChildren .overflow,
    statusChildren .unused,
    statusChildren .brk,
    statusChildren .decimal,
    statusChildren .interruptDisable,
    statusChildren .zero,
    statusChildren .carry,
    byteChildren .statusAnalyzer,
    [.controller],
    byteChildren .ir, [.control .instructionStart],
    [.sc, .control .scReset, .control .scIncrement, .control .scDecrement],
    [.ipc, .control .ipcLatch],
    [.memory, .control .memoryWrite, .control .memoryRead],
    wordChildren .mar,
    byteChildren .marLow,
    byteChildren .marHigh,
    byteChildren .marOffset,
    [.control .marAddOffset, .control .marIncrement, .control .marStackPage,
      .control .marInterruptVector]]

def control? : Component → Option Control
  | control c => some c
  | _ => none

/-- `BuildControlIndex`: the controls among the children, in order. -/
def controlOrder : List Control := children.filterMap control?

/-- The simulator registers its controls in the order of the hardware description. -/
theorem controlOrder_eq : controlOrder = cpuControls := by
  decide +kernel

/-! ## The phases of a component -/

open SimM

def tickControl : Component → SimM Unit
  | controller => do
      let cpu ← get
      let k := cpu.controller
      let status := StatusEncoder.encode k.instructionMemory.statusBits cpu.datapath.status
      let controls ← MonadExcept.ofExcept (k.instructionMemory.lookup cpu.irValue k.sc status)
      controls.forM assertControl
  | memory => do
      let cpu ← get
      -- every input device sets the shared line to its own level
      cpu.datapath.memory.irqLevels.forM (setControl .irqLine)
  | _ => pure ()

def tickWrite : Component → SimM Unit
  | byteRegister r => whenAsserted r.write do writeDataBus ((← get).datapath.byte r)
  | wordRegister r => whenAsserted r.write do writeAddressBus ((← get).datapath.word r)
  | memory => whenAsserted .memoryWrite do writeDataBus (← readMemory)
  | _ => pure ()

def tickRead : Component → SimM Unit
  | byteRegister r =>
      whenAsserted r.read do
        let v ← readDataBus r.path
        modifyDatapath fun d => d.load r v
  | wordRegister r =>
      whenAsserted r.read do
        let v ← readAddressBus r.path
        modifyDatapath fun d => d.setWord r v
  | memory => whenAsserted .memoryRead do writeMemory (← readDataBus Owner.memory.path)
  | _ => pure ()

/-- `Counter::TickProcess` of the stack pointer. -/
def processSp : SimM Unit := do
  if ← asserted ByteRegister.sp.reset then modifyDatapath fun d => { d with sp := 0 }
  else if ← asserted .spIncrement then modifyDatapath fun d => { d with sp := d.sp + 1 }
  else whenAsserted .spDecrement (modifyDatapath fun d => { d with sp := d.sp - 1 })

/-- An instruction start latches the interrupt decision. -/
def latchInterrupt : SimM Unit := do
  let irq ← asserted .irqLine
  let disabled := Status.value .interruptDisable (← get).datapath.status
  modifyController fun k => { k with injectInterrupt := irq && !disabled }

/-- `InstructionRegister::TickProcess` -/
def processIr : SimM Unit := do
  whenAsserted ByteRegister.ir.reset (modifyDatapath fun d => d.setByte .ir 0)
  if ← asserted ByteRegister.ir.reset then
    modifyController fun k => { k with injectInterrupt := false }
  else whenAsserted .instructionStart latchInterrupt

def processAlu : SimM Unit := do
  let bit0 ← asserted (.aluOpcodeBit 0)
  let bit1 ← asserted (.aluOpcodeBit 1)
  let bit2 ← asserted (.aluOpcodeBit 2)
  let bit3 ← asserted (.aluOpcodeBit 3)
  modifyDatapath fun d => d.executeAlu (Alu.opcode bit0 bit1 bit2 bit3)

/-- `ProgramCounter::TickProcess` -/
def processPc : SimM Unit := do
  if ← asserted WordRegister.pc.reset then modifyDatapath fun d => { d with pc := 0 }
  else
    whenAsserted .pcIncrement (modifyDatapath fun d => { d with pc := d.pc + 1 })
    whenAsserted .pcAddSignedOffset (modifyDatapath Datapath.addSignedOffset)

/-- `MemoryAddressRegister::TickProcess`, which ignores the reset of the whole word. -/
def processMar : SimM Unit := do
  whenAsserted .marInterruptVector (modifyDatapath fun d => { d with mar := 0xFFFE })
  whenAsserted .marStackPage (modifyDatapath fun d => d.setByte .marHigh 0x01)
  whenAsserted .marIncrement (modifyDatapath fun d => { d with mar := d.mar + 1 })
  whenAsserted .marAddOffset
    (modifyDatapath fun d => { d with mar := Datapath.addOffset d.mar d.marOffset })

/-- `Status::TickProcess`: of two asserted controls, set wins. -/
def processStatusBit (f : StatusBit) : SimM Unit := do
  let wantSet ← asserted f.set
  let wantClear ← asserted f.clear
  if wantSet || wantClear then modifyDatapath fun d => d.assignStatus f wantSet

def latchIpc : SimM Unit := do
  let cpu ← get
  modifyController fun k => { k with ipc := cpu.datapath.pc }

/-- `LocalCounter::TickProcess` of the step counter. -/
def processSc : SimM Unit := do
  if ← asserted .scReset then modifyController fun k => { k with sc := 0 }
  else if ← asserted .scIncrement then modifyController fun k => { k with sc := k.sc + 1 }
  else whenAsserted .scDecrement (modifyController fun k => { k with sc := k.sc - 1 })

def tickProcess : Component → SimM Unit
  | byteRegister .sp => processSp
  | byteRegister .ir => processIr
  | byteRegister r => whenAsserted r.reset (modifyDatapath fun d => d.setByte r 0)
  | wordRegister .pc => processPc
  | wordRegister .mar => processMar
  | wordRegister .tmp =>
      whenAsserted WordRegister.tmp.reset (modifyDatapath fun d => { d with tmp := 0 })
  | alu => processAlu
  | statusBit f => processStatusBit f
  | controller => whenAsserted .instructionStart latchIpc
  | sc => processSc
  | ipc => whenAsserted .ipcLatch latchIpc
  | _ => pure ()

def tickClear : Component → SimM Unit
  | control c =>
      if c.autoReset then
        modify fun cpu => { cpu with asserted := Function.update cpu.asserted c false }
      else pure ()
  | dataBus => modify fun cpu => { cpu with dataBus := Bus.clear }
  | addressBus => modify fun cpu => { cpu with addressBus := Bus.clear }
  | _ => pure ()

end Component

/-! ## A tick -/

namespace Cpu

open SimM Component

def enterPhase (phase : TickPhase) : SimM Unit :=
  modify fun cpu => { cpu with currentPhase := phase }

/-- The entry that `TickProcess` records at an instruction start. -/
def traceEntry (cpu : Cpu) : DebugTraceEntry where
  cycle := cpu.cycleCount
  instructionAddress := cpu.controller.ipc
  pc := cpu.datapath.pc
  ir := cpu.irValue
  sc := cpu.controller.sc
  a := cpu.datapath.a
  x := cpu.datapath.x
  status := cpu.datapath.status

/-- What `Cpu::TickProcess` does after its children. -/
def processCpu : SimM Unit := do
  whenAsserted .halt (modify fun cpu => { cpu with halted := true })
  whenAsserted .crash (modify fun cpu => { cpu with crashed := true, halted := true })
  whenAsserted .instructionStart
    (modify fun cpu => { cpu with ipcValid := true, trace := cpu.trace.record cpu.traceEntry })

def controlPhase : SimM Unit := do
  enterPhase .control
  children.forM tickControl

def writePhase : SimM Unit := do
  enterPhase .write
  children.forM tickWrite

def readPhase : SimM Unit := do
  enterPhase .read
  children.forM tickRead

def processPhase : SimM Unit := do
  enterPhase .process
  children.forM tickProcess
  processCpu

def clearPhase : SimM Unit := do
  enterPhase .clear
  children.forM tickClear

def endTick : SimM Unit := do
  enterPhase .none
  modify fun cpu => { cpu with cycleCount := cpu.cycleCount + 1 }

def tick : SimM Unit := do
  if (← get).halted then pure ()
  else
    controlPhase
    writePhase
    readPhase
    processPhase
    clearPhase
    endTick

/-! ## Construction -/

/-- The cartridge image, or an empty one of 32 KiB. -/
def newCartridgeRegion (cartridgeRom : List Byte) : Except SimError Region :=
  if cartridgeRom.isEmpty then do
    let rom ← Module.newRom 0x8000 0xFF
    Region.new "cartridge" 0x8000 rom
  else do
    let rom ← Module.newRomFromData cartridgeRom
    Region.new "cartridge" 0x8000 rom

def newRamRegion : Except SimError Region := do
  let ram ← Module.newRam 0x2000 0x00
  Region.new "ram" 0x0000 ram

/-- The state after construction. -/
def initial (memory : Memory) (instructionMemory : InstructionMemory) : Cpu where
  datapath := {
    a := 0, x := 0, y := 0, sp := 0, tmp := 0
    aluLhs := 0, aluRhs := 0, aluResult := 0
    pc := 0, pcSignedOffset := 0
    status := 0, statusAnalyzer := 0
    ir := 0x02
    mar := 0, marOffset := 0
    memory }
  controller := { injectInterrupt := false, sc := 0, ipc := 0, instructionMemory }
  asserted := fun _ => false
  dataBus := Bus.clear
  addressBus := Bus.clear
  currentPhase := .none
  halted := false
  crashed := false
  cycleCount := 0
  ipcValid := false
  trace := ⟨0, []⟩

/-- `Cpu::Cpu` on a program, a cartridge image and the extra memory regions. -/
def new (program : MicrocodeProgram) (cartridgeRom : List Byte) (extraRegions : List Region) :
    Except SimError Cpu := do
  let ram ← newRamRegion
  let cartridge ← newCartridgeRegion cartridgeRom
  let memory ← Memory.new (ram :: cartridge :: extraRegions)
  let instructionMemory ← InstructionMemory.new controlOrder program
  pure (initial memory instructionMemory)

/-- What a runner does before the first tick: it loads the entry address and its opcode. -/
def setEntry (cpu : Cpu) (entry : Word) : Cpu :=
  { cpu with
    datapath := { cpu.datapath with
      pc := entry
      ir := cpu.datapath.memory.byteAt entry
      memory := cpu.datapath.memory.afterRead entry }
    controller := { cpu.controller with sc := 0 } }

/-- The host acts on the device in the memory region with the given index. -/
def host (cpu : Cpu) (index : Nat) (i : HostInput) : Cpu :=
  { cpu with datapath := { cpu.datapath with memory := cpu.datapath.memory.host index i } }

end Cpu

end Irata2.Sim
