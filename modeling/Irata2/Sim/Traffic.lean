import Irata2.Sim.Instruction

/-!
# Memory traffic

The accesses of an instruction in their order: the opcode, the operand bytes, the pointer of an
indirect mode, and what the instruction does at its effective address, on the stack or at the
interrupt vector.  A device sees the reads of its data register, whatever they are made for.
-/

namespace Irata2.Sim

open Hdl Isa Library Library.StateRun Microcode

namespace Arch

/-- The addresses of the bytes behind the opcode. -/
def operandAddresses (s : Arch) (i : InstructionInfo) : List Word :=
  (List.range i.addressingMode.operands).map fun k => s.pc + 1 + BitVec.ofNat 16 k

/-- The byte behind the opcode. -/
def operandByte (s : Arch) : Byte := s.next.look (s.pc + 1)

/-- The addresses of the pointer of an indirect mode. -/
def pointerAddresses (s : Arch) (i : InstructionInfo) : List Word :=
  match i.addressingMode with
  | .izx => [zeroPage (s.operandByte + s.x), zeroPage (s.operandByte + s.x + 1)]
  | .izy => [zeroPage s.operandByte, zeroPage (s.operandByte + 1)]
  | .ind => [(s.operand i).address, (s.operand i).address + 1]
  | _ => []

/-- The accesses at the effective address, on the stack and at the interrupt vector. -/
def effectiveAccesses (s : Arch) (i : InstructionInfo) : List Access :=
  match i.addressingMode with
  -- the operand bytes, or the pointer, are all that these modes access
  | .imm | .rel | .ind => []
  | _ => Action.accesses (s.operand i).address s.sp (actionOn i s.status)

theorem accesses_immediate {s : Arch} {action : Isa.Action}
    (h : Bodies.fits .imm action = true) (address : Word) :
    Action.accesses address s.sp action = [.read address] := by
  cases action <;> first | rfl | cases h

theorem accesses_relative {s : Arch} {action : Isa.Action}
    (h : Bodies.fits .rel action = true) (address : Word) :
    Action.accesses address s.sp action = [.read address] := by
  cases action <;> first | rfl | cases h

theorem actionOn_indirect {i : InstructionInfo} (hi : i ∈ Isa.instructions)
    (hmode : i.addressingMode = .ind) (status : Byte) : actionOn i status = .jumpIndirect := by
  have hall : ∀ i ∈ Isa.instructions, i.addressingMode = .ind →
      i.mnemonic.condition = none ∧ i.mnemonic.action i.addressingMode = .jumpIndirect := by
    decide +kernel
  rcases hall i hi hmode with ⟨hcondition, haction⟩
  unfold actionOn
  rw [hcondition]
  exact haction

/-- The accesses of an instruction, by the parts of the instruction. -/
theorem accesses_eq {i : InstructionInfo} (hi : i ∈ Isa.instructions) (s : Arch) :
    s.accesses i = .read s.pc ::
      ((s.operandAddresses i ++ s.pointerAddresses i).map .read ++ s.effectiveAccesses i) := by
  have hfits := Bodies.fits_actionOn hi s.status
  have hindirect := fun hmode => actionOn_indirect hi hmode s.status
  have hzero : s.pc + 1 + BitVec.ofNat 16 0 = s.pc + 1 := BitVec.add_zero _
  unfold accesses operandAddresses pointerAddresses effectiveAccesses operand
  cases hmode : i.addressingMode with
  | imp => rfl
  | imm =>
      rw [hmode] at hfits
      show Access.read s.pc :: ([] ++ Action.accesses (s.pc + 1) s.sp _) =
        Access.read s.pc :: ([Access.read (s.pc + 1 + BitVec.ofNat 16 0)] ++ [])
      rw [accesses_immediate hfits, hzero]
      rfl
  | rel =>
      rw [hmode] at hfits
      show Access.read s.pc :: ([] ++ Action.accesses (s.pc + 1) s.sp _) =
        Access.read s.pc :: ([Access.read (s.pc + 1 + BitVec.ofNat 16 0)] ++ [])
      rw [accesses_relative hfits, hzero]
      rfl
  | ind =>
      rw [hindirect hmode]
      show Access.read s.pc :: ([Access.read (s.pc + 1), Access.read (s.pc + 1 + 1)] ++
          [Access.read _, Access.read _]) =
        Access.read s.pc :: ([Access.read (s.pc + 1 + BitVec.ofNat 16 0),
          Access.read (s.pc + 1 + 1), Access.read _, Access.read _] ++ [])
      rw [hzero]
      rfl
  | abs | abx | aby =>
      show Access.read s.pc :: ([Access.read (s.pc + 1), Access.read (s.pc + 1 + 1)] ++ _) =
        Access.read s.pc :: ([Access.read (s.pc + 1 + BitVec.ofNat 16 0),
          Access.read (s.pc + 1 + 1)] ++ _)
      rw [hzero]
  | zp | zpx | zpy =>
      show Access.read s.pc :: ([Access.read (s.pc + 1)] ++ _) =
        Access.read s.pc :: ([Access.read (s.pc + 1 + BitVec.ofNat 16 0)] ++ _)
      rw [hzero]
  | izx | izy =>
      show Access.read s.pc :: ([Access.read (s.pc + 1), Access.read _, Access.read _] ++ _) =
        Access.read s.pc :: ([Access.read (s.pc + 1 + BitVec.ofNat 16 0), Access.read _,
          Access.read _] ++ _)
      rw [hzero]
      rfl

end Arch

namespace Cpu

/-- An instruction makes the accesses of the architecture in order, up to a store that fails, and
takes one key from a device for each read of its data register among them. -/
theorem traffic {cpu : Cpu} (hb : cpu.AtBoundary) {i : InstructionInfo}
    (hi : i ∈ Isa.instructions) (hnext : cpu.nextOpcode = i.opcode) :
    ∃ n, OneInstruction n cpu ∧
      accessLog n cpu = .read cpu.datapath.pc ::
        ((cpu.datapath.arch.operandAddresses i ++ cpu.datapath.arch.pointerAddresses i).map .read ++
          cpu.datapath.arch.effectiveAccesses i) ∧
      ∀ address, (memoryOf (ticks n cpu)).keysAt address =
        (cpu.datapath.memory.keysAt address).map
          (List.drop ((accessLog n cpu).count (.read address))) := by
  refine ⟨duration i cpu.datapath.status, oneInstruction hb hi hnext, ?_, fun address => ?_⟩
  · rw [(executes hb hi hnext).1]
    exact Arch.accesses_eq hi cpu.datapath.arch
  · exact (replays_ticks Irata.compile_instructionSet hb.loaded _).keysAt address

/-! ## A program in a device -/

theorem aligned_keyboard : (0x4000 : Word).toNat % mmioSize = 0 := by decide

def keyboard (d : InputDevice) : Region :=
  ⟨"keyboard", 0x4000, mmioSize, .inputDevice d, isPowerOfTwo_mmio, aligned_keyboard⟩

/-- A memory whose device has the opcode of NOP as its only key. -/
def nopKeyMemory : Memory :=
  ⟨[ramRegion, emptyCartridge, keyboard (InputDevice.new.injectKey 0x02)],
    disjoint_of_firstOverlap (by rfl)⟩

/-- The next instruction is at the data register of the device. -/
def nopKeyDatapath : Datapath :=
  { (initial nopKeyMemory ⟨[], [], ⟨0, 0⟩⟩).datapath with pc := 0x4002 }

theorem lowRam_nopKeyMemory : nopKeyMemory.LowRam := Memory.lowRam_of_head

def nop : InstructionInfo := ⟨.nop, 0x02, .imp, []⟩

theorem nop_mem : nop ∈ Isa.instructions := by decide +kernel

theorem nextOpcode_nopKey {cpu : Cpu} (hpc : cpu.datapath.pc = 0x4002)
    (hmemory : cpu.datapath.memory = nopKeyMemory) : cpu.nextOpcode = nop.opcode := by
  have hlevel : cpu.irqLevel [] = false := by
    unfold irqLevel
    rw [hmemory]
    rfl
  have hbyte : nopKeyMemory.byteAt 0x4002 = nop.opcode := by decide +kernel
  unfold nextOpcode takesInterrupt
  rw [hlevel, hmemory, hpc]
  exact hbyte

/-- A NOP in the data register takes a key, although it has no effective address; and no
instruction executes over a stale opcode that has no microcode. -/
theorem not_traffic :
    (∃ cpu : Cpu, cpu.AtBoundary ∧ cpu.takesInterrupt = false ∧ cpu.nextOpcode = nop.opcode ∧
      cpu.datapath.memory.keysAt 0x4002 = some [0x02] ∧
      ∃ cpu', Executes cpu cpu' ∧ cpu'.datapath.memory.keysAt 0x4002 = some []) ∧
    ∃ cpu : Cpu, cpu.Loaded Irata.program ∧ cpu.halted = false ∧ cpu.controller.sc = 0 ∧
      cpu.datapath.memory.LowRam ∧ cpu.takesInterrupt = false ∧ cpu.nextOpcode = nop.opcode ∧
      ∀ cpu', ¬Executes cpu cpu' := by
  rcases exists_instructionMemory with ⟨m, hm⟩
  refine ⟨⟨start nopKeyDatapath m, ?_, rfl, nextOpcode_nopKey rfl rfl, rfl, ?_⟩,
    preempted { nopKeyDatapath with ir := 0x03 } m, loaded_preempted hm _, rfl, rfl,
    lowRam_nopKeyMemory, rfl, nextOpcode_nopKey rfl rfl, not_executes_preempted hm rfl rfl⟩
  · exact atBoundary_start hm ⟨nop, nop_mem, rfl⟩ lowRam_nopKeyMemory
  · have hb := atBoundary_start hm (d := nopKeyDatapath) ⟨nop, nop_mem, rfl⟩ lowRam_nopKeyMemory
    rcases exists_executes hb nop_mem (nextOpcode_nopKey rfl rfl) (s := nopKeyDatapath.arch.next) rfl
      with ⟨cpu', hexec, harch, -⟩
    refine ⟨cpu', hexec, ?_⟩
    have hmemory : cpu'.datapath.memory = nopKeyMemory.afterRead 0x4002 :=
      congrArg Arch.memory harch
    rw [hmemory, Memory.keysAt_afterRead_self]
    rfl

theorem traffic_nopKey :
    ∃ (cpu : Cpu) (n : Nat), OneInstruction n cpu ∧ accessLog n cpu = [.read 0x4002] ∧
      (memoryOf (ticks n cpu)).keysAt 0x4002 = some [] := by
  rcases exists_instructionMemory with ⟨m, hm⟩
  rcases traffic (atBoundary_start hm (d := nopKeyDatapath) ⟨nop, nop_mem, rfl⟩
    lowRam_nopKeyMemory) nop_mem (nextOpcode_nopKey rfl rfl) with ⟨n, hn, hlog, hkeys⟩
  refine ⟨_, n, hn, hlog, ?_⟩
  rw [hkeys, hlog]
  rfl

end Cpu

end Irata2.Sim
