import Irata2.Base.Types
import Mathlib.Data.Fin.Basic
import Mathlib.Tactic.SplitIfs

/-!
# Memory-mapped devices

The keyboard input device keeps its pending keys in a ring buffer of sixteen bytes, and the vector
graphics coprocessor keeps the operands of the next drawing command.  Both occupy sixteen bytes of
the address space; a register address is the offset inside that window.
-/

namespace Irata2.Sim

/-- `MMIO_SIZE` of both devices. -/
def mmioSize : Nat := 16

/-! ## The input device -/

namespace InputReg

def status : Word := 0x00
def control : Word := 0x01
def data : Word := 0x02
def peek : Word := 0x03
def count : Word := 0x04
def keyState : Word := 0x05

end InputReg

namespace InputStatus

def notEmpty : Byte := 0x01
def full : Byte := 0x02
def irqPending : Byte := 0x80

end InputStatus

/-- The bit of the control register that enables the interrupt. -/
def inputIrqEnable : Byte := 0x01

instance neZero_sixteen : NeZero 16 := ⟨by decide⟩

/-- The input device.  The indices wrap at the queue's sixteen places, and the places between them
hold the pending keys. -/
structure InputDevice where
  queue : Fin 16 → Byte
  readIdx : Fin 16
  writeIdx : Fin 16
  count : Nat
  irqEnabled : Bool
  keyState : Byte
  count_le : count ≤ 16
  writeIdx_eq : writeIdx.val = (readIdx.val + count) % 16

namespace InputDevice

def new : InputDevice where
  queue := fun _ => 0
  readIdx := 0
  writeIdx := 0
  count := 0
  irqEnabled := false
  keyState := 0
  count_le := by decide
  writeIdx_eq := by decide

def isEmpty (d : InputDevice) : Bool := d.count == 0

def isFull (d : InputDevice) : Bool := d.count == 16

def irqPending (d : InputDevice) : Bool := d.irqEnabled && !d.isEmpty

def peek (d : InputDevice) : Byte := if d.isEmpty then 0x00 else d.queue d.readIdx

/-- The oldest key, and the device without it. -/
def pop (d : InputDevice) : Byte × InputDevice :=
  if h : d.count = 0 then (0x00, d)
  else
    (d.queue d.readIdx,
      { d with
        readIdx := d.readIdx + 1
        count := d.count - 1
        count_le := by have := d.count_le; omega
        writeIdx_eq := by
          have h1 := d.count_le
          have h2 := d.writeIdx_eq
          rw [Fin.val_add]
          change d.writeIdx.val = ((d.readIdx.val + 1) % 16 + (d.count - 1)) % 16
          omega })

def statusByte (d : InputDevice) : Byte :=
  let status : Byte := 0
  let status := if !d.isEmpty then status ||| InputStatus.notEmpty else status
  let status := if d.isFull then status ||| InputStatus.full else status
  if d.irqPending then status ||| InputStatus.irqPending else status

/-- `Read`: only a read of the data register changes the device. -/
def read (d : InputDevice) (offset : Word) : Byte × InputDevice :=
  if offset = InputReg.status then (d.statusByte, d)
  else if offset = InputReg.data then d.pop
  else if offset = InputReg.peek then (d.peek, d)
  else if offset = InputReg.count then (BitVec.ofNat 8 d.count, d)
  else if offset = InputReg.keyState then (d.keyState, d)
  else (0, d)

def write (d : InputDevice) (offset : Word) (value : Byte) : InputDevice :=
  if offset = InputReg.control then { d with irqEnabled := value &&& inputIrqEnable != 0 } else d

def injectKey (d : InputDevice) (keyCode : Byte) : InputDevice :=
  if h : d.count = 16 then d
  else
    { d with
      queue := Function.update d.queue d.writeIdx keyCode
      writeIdx := d.writeIdx + 1
      count := d.count + 1
      count_le := by have := d.count_le; omega
      writeIdx_eq := by
        have h1 := d.count_le
        have h2 := d.writeIdx_eq
        rw [Fin.val_add, h2]
        change ((d.readIdx.val + d.count) % 16 + 1) % 16 = (d.readIdx.val + (d.count + 1)) % 16
        omega }

def setKeyDown (d : InputDevice) (bit : Byte) : InputDevice :=
  { d with keyState := d.keyState ||| bit }

def setKeyUp (d : InputDevice) (bit : Byte) : InputDevice :=
  { d with keyState := d.keyState &&& ~~~bit }

end InputDevice

/-- What the host does to an input device between ticks. -/
inductive HostInput
  | injectKey (keyCode : Byte)
  | setKeyDown (bit : Byte)
  | setKeyUp (bit : Byte)
  deriving DecidableEq, Repr

def InputDevice.host (d : InputDevice) : HostInput → InputDevice
  | .injectKey keyCode => d.injectKey keyCode
  | .setKeyDown bit => d.setKeyDown bit
  | .setKeyUp bit => d.setKeyUp bit

/-! ## The vector graphics coprocessor -/

/-- A call of the drawing backend. -/
inductive VgcCall
  | clear (intensity : Byte)
  | drawPoint (x y intensity : Byte)
  | drawLine (x0 y0 x1 y1 intensity : Byte)
  | present
  deriving DecidableEq, Repr

namespace VgcReg

def cmd : Word := 0x00
def x0 : Word := 0x01
def y0 : Word := 0x02
def x1 : Word := 0x03
def y1 : Word := 0x04
def color : Word := 0x05
def exec : Word := 0x06
def control : Word := 0x07

end VgcReg

namespace VgcCmd

def clear : Byte := 0x01
def point : Byte := 0x02
def line : Byte := 0x03

end VgcCmd

namespace VgcControl

def clear : Byte := 0x01
def present : Byte := 0x02
def irqEnable : Byte := 0x80

end VgcControl

/-- The vector graphics coprocessor.  Its backend is an interface, so the device records the calls
it makes, oldest first. -/
structure VectorGraphicsCoprocessor where
  cmd : Byte
  x0 : Byte
  y0 : Byte
  x1 : Byte
  y1 : Byte
  color : Byte
  irqEnabled : Bool
  calls : List VgcCall
  deriving DecidableEq, Repr

namespace VectorGraphicsCoprocessor

def new : VectorGraphicsCoprocessor where
  cmd := 0
  x0 := 0
  y0 := 0
  x1 := 0
  y1 := 0
  color := 0
  irqEnabled := false
  calls := []

def intensity (d : VectorGraphicsCoprocessor) : Byte := d.color &&& 0x03

def call (d : VectorGraphicsCoprocessor) (c : VgcCall) : VectorGraphicsCoprocessor :=
  { d with calls := d.calls ++ [c] }

/-- `Read`: the status register and every other register read as zero. -/
def read (_ : VectorGraphicsCoprocessor) (_ : Word) : Byte := 0

def executeCommand (d : VectorGraphicsCoprocessor) : VectorGraphicsCoprocessor :=
  if d.cmd = VgcCmd.clear then d.call (.clear d.intensity)
  else if d.cmd = VgcCmd.point then d.call (.drawPoint d.x0 d.y0 d.intensity)
  else if d.cmd = VgcCmd.line then d.call (.drawLine d.x0 d.y0 d.x1 d.y1 d.intensity)
  else d

def applyControl (d : VectorGraphicsCoprocessor) (control : Byte) : VectorGraphicsCoprocessor :=
  let d := { d with irqEnabled := control &&& VgcControl.irqEnable != 0 }
  let d := if control &&& VgcControl.clear != 0 then d.call (.clear d.intensity) else d
  if control &&& VgcControl.present != 0 then d.call .present else d

def write (d : VectorGraphicsCoprocessor) (offset : Word) (value : Byte) :
    VectorGraphicsCoprocessor :=
  if offset = VgcReg.cmd then { d with cmd := value }
  else if offset = VgcReg.x0 then { d with x0 := value }
  else if offset = VgcReg.y0 then { d with y0 := value }
  else if offset = VgcReg.x1 then { d with x1 := value }
  else if offset = VgcReg.y1 then { d with y1 := value }
  else if offset = VgcReg.color then { d with color := value }
  else if offset = VgcReg.exec then (if value = 0x01 then d.executeCommand else d)
  else if offset = VgcReg.control then d.applyControl value
  else d

end VectorGraphicsCoprocessor

end Irata2.Sim
