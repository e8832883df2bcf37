import Irata2.Isa.Operations
import Irata2.Sim.Access

/-!
# The architecture

What a program sees of the CPU: its registers and the memory.  An instruction first finds its
operand, which reads the bytes behind the opcode and, in the indirect modes, a pointer.  Then its
action reads or writes the operand, and the action's result goes to its destination.
-/

namespace Irata2.Isa

/-- What a function makes of the accumulator and an operand. -/
def Binary.value (f : Binary) (a v : Byte) (carry : Bool) : Byte :=
  match f with
  | .add => a + v + if carry then 1 else 0
  | .subtract => a - v - if carry then 0 else 1
  | .and => a &&& v
  | .or => a ||| v
  | .xor => a ^^^ v

/-- What a function makes of its operand. -/
def Unary.value (f : Unary) (v : Byte) (carry : Bool) : Byte :=
  match f with
  | .increment => v + 1
  | .decrement => v - 1
  | .shiftLeft => v <<< 1
  | .shiftRight => v >>> 1
  | .rotateLeft => v <<< 1 ||| if carry then 1 else 0
  | .rotateRight => v >>> 1 ||| if carry then 0x80 else 0

end Irata2.Isa

namespace Irata2.Sim

open Hdl Isa

/-! ## The arithmetic unit -/

namespace Alu

theorem toNat_setWidth_byte (v : Byte) : (v.setWidth 16 : Word).toNat = v.toNat := by
  rw [BitVec.toNat_setWidth]
  have hv := v.isLt
  omega

theorem setWidth_setWidth_byte (v : Byte) : (v.setWidth 16 : Word).setWidth 8 = v := by
  apply BitVec.eq_of_toNat_eq
  rw [BitVec.toNat_setWidth, toNat_setWidth_byte]
  exact Nat.mod_eq_of_lt v.isLt

theorem setWidth_sub (v w : Word) :
    (v - w).setWidth 8 = (v.setWidth 8 - w.setWidth 8 : Byte) := by
  apply BitVec.eq_of_toNat_eq
  have hv := v.isLt
  have hw := w.isLt
  simp only [BitVec.toNat_setWidth, BitVec.toNat_sub]
  omega

/-- The unit computes the functions of two operands. -/
theorem result_binary (f : Binary) (a v r status : Byte) :
    (execute f.code a v r status).result = f.value a v (Status.value .carry status) := by
  cases f with
  | add =>
      have h : (execute Binary.add.code a v r status).result =
          (a.setWidth 16 + v.setWidth 16 + if Status.value .carry status = true then 1 else 0 :
            Word).setWidth 8 := rfl
      rw [h, BitVec.setWidth_add _ _ (by decide), BitVec.setWidth_add _ _ (by decide),
        setWidth_setWidth_byte, setWidth_setWidth_byte]
      cases Status.value .carry status <;> rfl
  | subtract =>
      have h : (execute Binary.subtract.code a v r status).result =
          (a.setWidth 16 - (v.setWidth 16 + if Status.value .carry status = true then 0 else 1) :
            Word).setWidth 8 := rfl
      rw [h, setWidth_sub, BitVec.setWidth_add _ _ (by decide), setWidth_setWidth_byte,
        setWidth_setWidth_byte, ← BitVec.sub_sub]
      cases Status.value .carry status <;> rfl
  | and =>
      show ((a.setWidth 16 &&& v.setWidth 16 : Word)).setWidth 8 = a &&& v
      rw [BitVec.setWidth_and, setWidth_setWidth_byte, setWidth_setWidth_byte]
  | or =>
      show ((a.setWidth 16 ||| v.setWidth 16 : Word)).setWidth 8 = a ||| v
      rw [BitVec.setWidth_or, setWidth_setWidth_byte, setWidth_setWidth_byte]
  | xor =>
      show ((a.setWidth 16 ^^^ v.setWidth 16 : Word)).setWidth 8 = a ^^^ v
      rw [BitVec.setWidth_xor, setWidth_setWidth_byte, setWidth_setWidth_byte]

/-- The unit computes the functions of one operand. -/
theorem result_unary (f : Unary) (v w r status : Byte) :
    (execute f.code v w r status).result = f.value v (Status.value .carry status) := by
  cases f with
  | increment =>
      show (v.setWidth 16 + 1 : Word).setWidth 8 = v + 1
      rw [BitVec.setWidth_add _ _ (by decide), setWidth_setWidth_byte]
      rfl
  | decrement =>
      show (v.setWidth 16 - 1 : Word).setWidth 8 = v - 1
      rw [setWidth_sub, setWidth_setWidth_byte]
      rfl
  | shiftLeft =>
      show (v.setWidth 16 : Word).setWidth 8 <<< 1 = v <<< 1
      rw [setWidth_setWidth_byte]
  | shiftRight =>
      show (v.setWidth 16 : Word).setWidth 8 >>> 1 = v >>> 1
      rw [setWidth_setWidth_byte]
  | rotateLeft =>
      show ((v.setWidth 16 : Word).setWidth 8 <<< 1 ||| if _ then 1 else 0) =
        v <<< 1 ||| if _ then 1 else 0
      rw [setWidth_setWidth_byte]
  | rotateRight =>
      show ((v.setWidth 16 : Word).setWidth 8 >>> 1 ||| if _ then 0x80 else 0) =
        v >>> 1 ||| if _ then 0x80 else 0
      rw [setWidth_setWidth_byte]

/-- The status register after a function does not depend on the result register before it. -/
theorem status_congr (opcode : Nat) (v w r r' status : Byte) :
    (execute opcode v w r status).status = (execute opcode v w r' status).status := by
  unfold execute
  split <;> rfl

/-- A function of one operand ignores the other one. -/
theorem status_unary (f : Unary) (v w w' r status : Byte) :
    (execute f.code v w r status).status = (execute f.code v w' r status).status := by
  cases f <;> rfl

end Alu

/-! ## The memory of a CPU -/

namespace Memory

/-- The first 8 KiB are RAM, as the constructor of the CPU maps them. -/
def LowRam (m : Memory) : Prop := ∀ address : Word, address.toNat < 0x2000 → m.isRam address = true

/-- The memory after a store; one that fails changes nothing. -/
def store (m : Memory) (address : Word) (v : Byte) : Memory :=
  match m.writeAt address v with
  | .ok m' => m'
  | .error _ => m

theorem lowRam_afterRead {m : Memory} (h : m.LowRam) (address : Word) :
    (m.afterRead address).LowRam :=
  fun b hb => (isRam_afterRead m address b).trans (h b hb)

theorem lowRam_writeAt {m m' : Memory} (h : m.LowRam) {address : Word} {v : Byte}
    (hw : m.writeAt address v = .ok m') : m'.LowRam :=
  fun b hb => (isRam_writeAt hw b).trans (h b hb)

theorem lowRam_host {m : Memory} (h : m.LowRam) (index : Nat) (i : HostInput) :
    (m.host index i).LowRam :=
  fun b hb => (isRam_host m index i b).trans (h b hb)

theorem writeAt_store {m : Memory} {address : Word} (h : m.isRam address = true) (v : Byte) :
    m.writeAt address v = .ok (m.store address v) := by
  rcases writeAt_of_isRam h v with ⟨m', hw, -⟩
  unfold store
  rw [hw]

theorem cell_store {m : Memory} {address : Word} (h : m.isRam address = true) (v : Byte) :
    (m.store address v).cell address = some v := by
  rcases writeAt_of_isRam h v with ⟨m', hw, hcell⟩
  unfold store
  rw [hw]
  exact hcell

theorem cell_store_of_ne (m : Memory) {address b : Word} (hb : b ≠ address) (v : Byte) :
    (m.store address v).cell b = m.cell b := by
  unfold store
  cases hw : m.writeAt address v with
  | ok m' => exact cell_writeAt hw hb
  | error e => rfl

theorem isRam_store (m : Memory) (address b : Word) (v : Byte) :
    (m.store address v).isRam b = m.isRam b := by
  unfold store
  cases hw : m.writeAt address v with
  | ok m' => exact isRam_writeAt hw b
  | error e => rfl

theorem lowRam_store {m : Memory} (h : m.LowRam) (address : Word) (v : Byte) :
    (m.store address v).LowRam :=
  fun b hb => (isRam_store m address b v).trans (h b hb)

end Memory

/-- The address of a byte on the stack page. -/
def stackAt (sp : Byte) : Word := Word.ofBytes 1 sp

/-- An address on the zero page. -/
def zeroPage (b : Byte) : Word := Word.ofBytes 0 b

theorem Memory.LowRam.stackAt {m : Memory} (h : m.LowRam) (sp : Byte) :
    m.isRam (stackAt sp) = true := by
  apply h
  have hsp := sp.isLt
  unfold Sim.stackAt
  rw [Word.toNat_ofBytes]
  show 1 * 256 + _ < _
  omega

theorem Memory.LowRam.zeroPage {m : Memory} (h : m.LowRam) (b : Byte) :
    m.isRam (zeroPage b) = true := by
  apply h
  have hb := b.isLt
  unfold Sim.zeroPage
  rw [Word.toNat_ofBytes]
  show 0 * 256 + _ < _
  omega

/-! ## The registers of a program -/

structure Arch where
  a : Byte
  x : Byte
  y : Byte
  sp : Byte
  pc : Word
  status : Byte
  memory : Memory

def Datapath.arch (d : Datapath) : Arch := ⟨d.a, d.x, d.y, d.sp, d.pc, d.status, d.memory⟩

namespace Arch

variable (s : Arch)

def reg : Isa.Register → Byte
  | .a => s.a
  | .x => s.x
  | .y => s.y

def setReg (r : Isa.Register) (v : Byte) : Arch :=
  match r with
  | .a => { s with a := v }
  | .x => { s with x := v }
  | .y => { s with y := v }

/-- The byte at an address. -/
def look (address : Word) : Byte := s.memory.byteAt address

/-- What reading an address leaves behind. -/
def read (address : Word) : Arch := { s with memory := s.memory.afterRead address }

/-- Reads the byte at the program counter and steps over it. -/
def next : Arch := { s.read s.pc with pc := s.pc + 1 }

def assign (f : StatusBit) (v : Bool) : Arch := { s with status := Status.assign f v s.status }

/-- Zero and negative are those of the byte. -/
def setFlags (v : Byte) : Arch := (s.assign .zero (v == 0)).assign .negative (v &&& 0x80 != 0)

/-! ### The stack -/

def push (v : Byte) : Arch :=
  { s with memory := s.memory.store (stackAt s.sp) v, sp := s.sp - 1 }

def pushWord (w : Word) : Arch := (s.push w.high).push w.low

/-- The byte that is pulled next. -/
def top : Byte := s.look (stackAt (s.sp + 1))

def pull : Arch := { s.read (stackAt (s.sp + 1)) with sp := s.sp + 1 }

/-- Pulls the program counter, low byte first. -/
def pullPc : Arch := { s.pull.pull with pc := Word.ofBytes s.pull.top s.top }

/-- Loads the program counter from two bytes of memory. -/
def loadPc (address : Word) : Arch :=
  { (s.read address).read (address + 1) with
    pc := Word.ofBytes ((s.read address).look (address + 1)) (s.look address) }

/-- The entry to an interrupt handler, with the break bit that is pushed. -/
def interrupt (b : Bool) : Arch :=
  let s := ((s.assign .interruptDisable true).pushWord s.pc).assign .brk b
  (((s.push s.status).assign .brk false)).loadPc 0xFFFE

end Arch

/-! ## Finding the operand -/

/-- The address of an operand, the reads that found it, and the state after them. -/
structure Located where
  address : Word
  reads : List Word
  arch : Arch

namespace Arch

/-- A pointer on the zero page. -/
def pointer (s : Arch) (p : Byte) : Located where
  address := Word.ofBytes ((s.read (zeroPage p)).look (zeroPage (p + 1))) (s.look (zeroPage p))
  reads := [zeroPage p, zeroPage (p + 1)]
  arch := (s.read (zeroPage p)).read (zeroPage (p + 1))

/-- Two bytes behind the opcode. -/
def absolute (s : Arch) : Located where
  address := Word.ofBytes (s.next.look (s.pc + 1)) (s.look s.pc)
  reads := [s.pc, s.pc + 1]
  arch := s.next.next

/-- The operand of an instruction whose opcode has been fetched. -/
def locate (s : Arch) : AddressingMode → Located
  | .imp => ⟨0, [], s⟩
  | .imm | .rel => ⟨s.pc, [], { s with pc := s.pc + 1 }⟩
  | .zp => ⟨zeroPage (s.look s.pc), [s.pc], s.next⟩
  | .zpx => ⟨zeroPage (s.look s.pc + s.x), [s.pc], s.next⟩
  | .zpy => ⟨zeroPage (s.look s.pc + s.y), [s.pc], s.next⟩
  | .abs | .ind => s.absolute
  | .abx => { s.absolute with address := s.absolute.address + s.x.setWidth 16 }
  | .aby => { s.absolute with address := s.absolute.address + s.y.setWidth 16 }
  | .izx =>
      let p := s.next.pointer (s.look s.pc + s.x)
      { p with reads := s.pc :: p.reads }
  | .izy =>
      let p := s.next.pointer (s.look s.pc)
      { p with address := p.address + s.y.setWidth 16, reads := s.pc :: p.reads }

end Arch

/-! ## Actions -/

namespace Arch

/-- The status register after a function of the arithmetic unit. -/
def afterAlu (s : Arch) (opcode : Nat) (lhs rhs : Byte) : Arch :=
  { s with status := (Alu.execute opcode lhs rhs 0 s.status).status }

/-- What an action does with the operand at an address. -/
def exec (s : Arch) (address : Word) : Action → Except SimError Arch
  | .nop | .halt | .crash | .pass => .ok s
  | .load r => .ok (((s.read address).setReg r (s.look address)).setFlags (s.look address))
  | .store r => (s.memory.writeAt address (s.reg r)).map fun memory => { s with memory := memory }
  | .accumulate f =>
      let v := f.value s.a (s.look address) (Status.value .carry s.status)
      .ok ((((s.read address).afterAlu f.code s.a (s.look address)).setReg .a v).setFlags v)
  | .compare r =>
      let v := s.look address
      .ok ((((s.read address).assign .carry true).afterAlu 0x2 (s.reg r) v).setFlags (s.reg r - v))
  | .bit => .ok ((s.read address).setFlags (s.a &&& s.look address))
  | .modify r f =>
      let v := f.value (s.reg r) (Status.value .carry s.status)
      .ok (((s.afterAlu f.code (s.reg r) 0).setReg r v).setFlags v)
  | .modifyMemory f =>
      let v := f.value (s.look address) (Status.value .carry s.status)
      ((s.memory.afterRead address).writeAt address v).map fun memory =>
        ({ s.afterAlu f.code (s.look address) 0 with memory := memory }).setFlags v
  | .transfer source target => .ok ((s.setReg target (s.reg source)).setFlags (s.reg source))
  | .stackToX => .ok (({ s with x := s.sp }).setFlags s.sp)
  | .xToStack => .ok { s with sp := s.x }
  | .pushAccumulator => .ok (s.push s.a)
  | .pushStatus => .ok (s.push s.status)
  | .pullAccumulator => .ok (({ s.pull with a := s.top }).setFlags s.top)
  | .pullStatus => .ok { s.pull with status := s.top }
  | .assign f v => .ok (s.assign f v)
  | .branch =>
      .ok { s.read address with pc := s.pc + (s.look address).signExtend 16 }
  | .skip => .ok (s.read address)
  | .jump => .ok { s with pc := address }
  | .jumpIndirect => .ok (s.loadPc address)
  | .call => .ok { s.pushWord s.pc with pc := address }
  | .ret => .ok s.pullPc
  | .brk => .ok (s.interrupt true)
  | .irq => .ok (s.interrupt false)
  | .rti => .ok ({ s.pull with status := s.top }).pullPc

end Arch

/-- The accesses of an action. -/
def Action.accesses (address : Word) (sp : Byte) : Isa.Action → List Access
  | .load _ | .accumulate _ | .compare _ | .bit | .branch | .skip => [.read address]
  | .store _ => [.write address]
  | .modifyMemory _ => [.read address, .write address]
  | .pushAccumulator | .pushStatus => [.write (stackAt sp)]
  | .pullAccumulator | .pullStatus => [.read (stackAt (sp + 1))]
  | .call => [.write (stackAt sp), .write (stackAt (sp - 1))]
  | .ret => [.read (stackAt (sp + 1)), .read (stackAt (sp + 2))]
  | .brk | .irq => [.write (stackAt sp), .write (stackAt (sp - 1)), .write (stackAt (sp - 2)),
      .read 0xFFFE, .read 0xFFFF]
  | .rti => [.read (stackAt (sp + 1)), .read (stackAt (sp + 2)), .read (stackAt (sp + 3))]
  | .jumpIndirect => [.read address, .read (address + 1)]
  | .nop | .halt | .crash | .modify _ _ | .transfer _ _ | .stackToX | .xToStack | .assign _ _
  | .jump | .pass => []

/-! ## Instructions -/

/-- The action of an instruction under a status. -/
def actionOn (i : InstructionInfo) (status : Byte) : Action :=
  match i.mnemonic.condition with
  | none => i.mnemonic.action i.addressingMode
  | some (f, v) =>
      if Status.value f status = v then i.mnemonic.action i.addressingMode else i.mnemonic.otherwise

namespace Arch

/-- The operand of the instruction at the program counter. -/
def operand (s : Arch) (i : InstructionInfo) : Located := s.next.locate i.addressingMode

/-- What the instruction at the program counter does. -/
def execute (s : Arch) (i : InstructionInfo) : Except SimError Arch :=
  (s.operand i).arch.exec (s.operand i).address (actionOn i s.status)

/-- The accesses of the instruction at the program counter. -/
def accesses (s : Arch) (i : InstructionInfo) : List Access :=
  .read s.pc :: ((s.operand i).reads.map .read ++
    Action.accesses (s.operand i).address s.sp (actionOn i s.status))

end Arch

end Irata2.Sim
