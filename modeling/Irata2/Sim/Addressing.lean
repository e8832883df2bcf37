import Irata2.Sim.Effects

/-!
# Effective addresses

Where an instruction finds its operand: the number that MAR holds when the operand is accessed,
from the bytes behind the opcode, the index registers and the zero page.
-/

namespace Irata2.Sim

open Hdl Isa Library Library.StateRun Microcode

/-- The address of an operand, from the two bytes behind the opcode, the index registers and the
bytes of the zero page. -/
def effectiveAddress (low high x y : Nat) (page : Nat → Nat) : AddressingMode → Nat
  | .zp => low
  | .zpx => (low + x) % 256
  | .zpy => (low + y) % 256
  | .abs | .ind => high * 256 + low
  | .abx => (high * 256 + low + x) % 65536
  | .aby => (high * 256 + low + y) % 65536
  | .izx => page ((low + x + 1) % 256) * 256 + page ((low + x) % 256)
  | .izy => (page ((low + 1) % 256) * 256 + page low + y) % 65536
  | .imp | .imm | .rel => 0

/-- The modes that find their operand at an address of its own. -/
def findsOperand : AddressingMode → Bool
  | .imp | .imm | .rel => false
  | _ => true

/-- The actions that read or write the operand. -/
def usesOperand : Isa.Action → Bool
  | .load _ | .store _ | .accumulate _ | .compare _ | .bit | .modifyMemory _ => true
  | _ => false

/-- What MAR holds at an access. -/
def Access.address : Access → Word
  | .read address | .write address => address

/-- An action that uses the operand makes its accesses at the operand's address. -/
theorem address_of_usesOperand {action : Isa.Action} (h : usesOperand action = true)
    (address : Word) (sp : Byte) :
    Action.accesses address sp action ≠ [] ∧
      ∀ access ∈ Action.accesses address sp action, access.address = address := by
  cases action with
  | load r | store r | accumulate f | compare r | bit =>
      refine ⟨List.cons_ne_nil _ _, ?_⟩
      intro access hmem
      cases List.mem_singleton.mp hmem
      rfl
  | modifyMemory f =>
      refine ⟨List.cons_ne_nil _ _, ?_⟩
      intro access hmem
      rcases List.mem_cons.mp hmem with rfl | hmem
      · rfl
      · cases List.mem_singleton.mp hmem
        rfl
  | _ => cases h

namespace Arch

/-- The byte behind the opcode, and the one behind it. -/
def operandLow (s : Arch) : Byte := s.next.look s.next.pc

def operandHigh (s : Arch) : Byte := s.next.next.look s.next.next.pc

/-- A byte of the zero page. -/
def page (s : Arch) (k : Nat) : Nat := (s.look (zeroPage (BitVec.ofNat 8 k))).toNat

/-- The address of the operand of the instruction at the program counter. -/
def operandAddress (s : Arch) (mode : AddressingMode) : Nat :=
  effectiveAddress s.operandLow.toNat s.operandHigh.toNat s.x.toNat s.y.toNat s.page mode

theorem toNat_zeroPage (b : Byte) : (zeroPage b).toNat = b.toNat := by
  unfold zeroPage
  rw [Word.toNat_ofBytes]
  show 0 * 256 + b.toNat = b.toNat
  omega

theorem page_toNat (s : Arch) (b : Byte) : s.page b.toNat = (s.look (zeroPage b)).toNat := by
  unfold page
  rw [BitVec.ofNat_toNat, BitVec.setWidth_eq]

/-- Reading elsewhere does not change the zero page, which is RAM. -/
theorem look_read_zeroPage {s : Arch} (h : s.memory.LowRam) (address : Word) (b : Byte) :
    (s.read address).look (zeroPage b) = s.look (zeroPage b) := by
  rcases Memory.cell_of_isRam (h.zeroPage b) with ⟨v, hv⟩
  have hread : (s.memory.afterRead address).cell (zeroPage b) = some v := by
    rw [Memory.cell_afterRead]
    exact hv
  exact (Memory.byteAt_of_cell hread).trans (Memory.byteAt_of_cell hv).symm

theorem toNat_pointer {s : Arch} (h : s.memory.LowRam) (p : Byte) :
    (s.next.next.pointer p).address.toNat =
      s.page ((p.toNat + 1) % 256) * 256 + s.page p.toNat := by
  have hnext := Memory.lowRam_afterRead h s.pc
  have hlook : ∀ b, s.next.next.look (zeroPage b) = s.look (zeroPage b) := fun b =>
    (look_read_zeroPage (s := s.next) hnext s.next.pc b).trans (look_read_zeroPage h s.pc b)
  have hlookRead : ∀ b, (s.next.next.read (zeroPage p)).look (zeroPage b) =
      s.look (zeroPage b) := fun b =>
    (look_read_zeroPage (s := s.next.next) (Memory.lowRam_afterRead hnext s.next.pc) _ b).trans
      (hlook b)
  have hone : (p.toNat + 1) % 256 = (p + 1).toNat := (BitVec.toNat_add p 1).symm
  show (Word.ofBytes ((s.next.next.read (zeroPage p)).look (zeroPage (p + 1)))
    (s.next.next.look (zeroPage p))).toNat = _
  rw [Word.toNat_ofBytes, hlook, hlookRead, hone, page_toNat, page_toNat]

/-- The addressing modes compute the effective address. -/
theorem toNat_operand {s : Arch} (h : s.memory.LowRam) {i : InstructionInfo}
    (hmode : findsOperand i.addressingMode = true) :
    (s.operand i).address.toNat = s.operandAddress i.addressingMode := by
  have hwiden : ∀ b : Byte, (b.setWidth 16 : Word).toNat = b.toNat := Alu.toNat_setWidth_byte
  have habsolute : s.next.absolute.address.toNat =
      s.operandHigh.toNat * 256 + s.operandLow.toNat := Word.toNat_ofBytes _ _
  unfold operand operandAddress
  cases hm : i.addressingMode with
  | zp => exact toNat_zeroPage _
  | zpx =>
      show (zeroPage (s.operandLow + s.x)).toNat = (s.operandLow.toNat + s.x.toNat) % 256
      rw [toNat_zeroPage, BitVec.toNat_add]
  | zpy =>
      show (zeroPage (s.operandLow + s.y)).toNat = (s.operandLow.toNat + s.y.toNat) % 256
      rw [toNat_zeroPage, BitVec.toNat_add]
  | abs | ind => exact habsolute
  | abx =>
      show (s.next.absolute.address + s.x.setWidth 16).toNat =
        (s.operandHigh.toNat * 256 + s.operandLow.toNat + s.x.toNat) % 65536
      rw [BitVec.toNat_add, habsolute, hwiden]
  | aby =>
      show (s.next.absolute.address + s.y.setWidth 16).toNat =
        (s.operandHigh.toNat * 256 + s.operandLow.toNat + s.y.toNat) % 65536
      rw [BitVec.toNat_add, habsolute, hwiden]
  | izx =>
      -- the index wraps within the page, and the second byte of the pointer does too
      have hindex : (s.operandLow + s.x).toNat = (s.operandLow.toNat + s.x.toNat) % 256 :=
        BitVec.toNat_add _ _
      have hwrap : ((s.operandLow.toNat + s.x.toNat) % 256 + 1) % 256 =
          (s.operandLow.toNat + s.x.toNat + 1) % 256 := by omega
      have hpointer := toNat_pointer h (s.operandLow + s.x)
      rw [hindex, hwrap] at hpointer
      exact hpointer
  | izy =>
      show ((s.next.next.pointer s.operandLow).address + s.y.setWidth 16).toNat =
        (s.page ((s.operandLow.toNat + 1) % 256) * 256 + s.page s.operandLow.toNat +
          s.y.toNat) % 65536
      rw [BitVec.toNat_add, toNat_pointer h, hwiden]
  | imp | imm | rel =>
      rw [hm] at hmode
      cases hmode

end Arch

namespace Cpu

/-- An instruction accesses its operand at the effective address of its mode, and JMP with an
indirect operand loads the program counter from there and from the address behind it. -/
theorem operand_access {cpu : Cpu} (hb : cpu.AtBoundary) {i : InstructionInfo}
    (hi : i ∈ Isa.instructions) (hnext : cpu.nextOpcode = i.opcode)
    (hmode : findsOperand i.addressingMode = true) :
    (usesOperand (actionOn i cpu.datapath.status) = true →
      ∃ accesses, accesses ≠ [] ∧
        (∀ access ∈ accesses, access.address.toNat =
          cpu.datapath.arch.operandAddress i.addressingMode) ∧
        accessLog (duration i cpu.datapath.status) cpu = .read cpu.datapath.pc ::
          ((cpu.datapath.arch.operand i).reads.map .read ++ accesses)) ∧
    (i.addressingMode = .ind → ∃ cpu' p, Executes cpu cpu' ∧
      p.toNat = cpu.datapath.arch.operandAddress .ind ∧
      accessLog (duration i cpu.datapath.status) cpu = .read cpu.datapath.pc ::
        ((cpu.datapath.arch.operand i).reads.map .read ++ [.read p, .read (p + 1)]) ∧
      cpu'.datapath.pc = Word.ofBytes
        (((cpu.datapath.arch.operand i).arch.read p).look (p + 1))
        ((cpu.datapath.arch.operand i).arch.look p)) := by
  have haddress := Arch.toNat_operand (s := cpu.datapath.arch) hb.lowRam hmode
  have hlog := (executes hb hi hnext).1
  constructor
  · intro huses
    rcases address_of_usesOperand huses (cpu.datapath.arch.operand i).address cpu.datapath.sp with
      ⟨hne, hall⟩
    refine ⟨_, hne, ?_, hlog⟩
    intro access hmem
    rw [hall access hmem, haddress]
  · intro hind
    -- the table has one instruction in the indirect mode, the jump
    have hjump : ∀ i ∈ Isa.instructions, i.addressingMode = .ind →
        i.mnemonic.condition = none ∧
          i.mnemonic.action i.addressingMode = .jumpIndirect := by
      decide +kernel
    rcases hjump i hi hind with ⟨hcondition, haction⟩
    have hon : actionOn i cpu.datapath.status = .jumpIndirect := by
      unfold actionOn
      rw [hcondition]
      exact haction
    have hexec : cpu.datapath.arch.execute i =
        .ok ((cpu.datapath.arch.operand i).arch.loadPc (cpu.datapath.arch.operand i).address) := by
      unfold Arch.execute
      rw [show actionOn i cpu.datapath.arch.status = .jumpIndirect from hon]
      rfl
    rcases exists_executes hb hi hnext hexec with ⟨cpu', hexecutes, harch, -⟩
    refine ⟨cpu', (cpu.datapath.arch.operand i).address, hexecutes, ?_, ?_, ?_⟩
    · rw [haddress, hind]
    · rw [hlog]
      unfold Arch.accesses
      rw [show actionOn i cpu.datapath.arch.status = .jumpIndirect from hon]
      rfl
    · exact congrArg Arch.pc harch

def ldaIndexed : InstructionInfo := ⟨.lda, 0x80, .zpx, [.zero, .negative]⟩

/-- LDA indexed by X wraps around the zero page. -/
theorem operand_access_ldaIndexed :
    ∃ (cpu : Cpu) (n : Nat) (accesses : List Access), accesses ≠ [] ∧
      (∀ access ∈ accesses, access.address.toNat = 0x10) ∧
      accessLog n cpu = .read 0 :: ([.read 1] ++ accesses) := by
  rcases exists_instructionMemory with ⟨m, hm⟩
  have hb : (start { imageDatapath [ldaIndexed.opcode, 0xF0] with x := 0x20 } m).AtBoundary :=
    atBoundary_start hm exists_nop Memory.lowRam_of_head
  have hirq : (start { imageDatapath [ldaIndexed.opcode, 0xF0] with x := 0x20 } m).takesInterrupt =
      false := @takesInterrupt_of_memory _ [ldaIndexed.opcode, 0xF0] rfl rfl
  have hnext := (nextOpcode_of_not_taken hirq).trans
    (Memory.byteAt_image (b := 0) [ldaIndexed.opcode, 0xF0] (by decide))
  have haddress : ({ imageDatapath [ldaIndexed.opcode, 0xF0] with x := 0x20 } :
      Datapath).arch.operandAddress .zpx = 0x10 := by decide +kernel
  rcases (operand_access (i := ldaIndexed) hb (by decide +kernel) hnext rfl).1 rfl with
    ⟨accesses, hne, hall, hlog⟩
  refine ⟨_, _, accesses, hne, ?_, hlog⟩
  intro access hmem
  exact (hall access hmem).trans haddress

end Cpu

end Irata2.Sim
