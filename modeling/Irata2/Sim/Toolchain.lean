import Irata2.Assembler.Layout
import Irata2.Sim.BranchTargets
import Irata2.Sim.MemoryMap
import Irata2.Sim.RunTool

/-!
# From the source to the run

The assembler places the statements of a program, the cartridge puts the image behind the RAM, and
the CPU runs what it fetches.  Nothing that a run does changes the image, so wherever the program
counter comes to an instruction of the source the CPU executes that instruction.
-/

namespace Irata2.Sim

open Assembler Hdl Isa Library Microcode StateRun

/-! ## What every step keeps of the memory -/

namespace Cpu

/-- What reads, stores and host actions keep of the memory holds in a whole run. -/
theorem memory_run {P : Memory → Prop} (hread : ∀ m address, P m → P (m.afterRead address))
    (hwrite : ∀ m m' address v, m.writeAt address v = .ok m' → P m → P m')
    (hhost : ∀ m index i, P m → P (m.host index i)) {cpu cpu' : Cpu}
    (hload : cpu.Loaded Irata.program) (h : P cpu.datapath.memory) (hrun : Run cpu cpu') :
    P cpu'.datapath.memory := by
  induction hrun with
  | refl => exact h
  | @tail s t hrun hstep ih =>
      have hs := loaded_run Irata.compile_instructionSet hload hrun
      cases hstep with
      | host index i => exact hhost _ index i ih
      | tickError ht he =>
          rw [eq_of_tick_error hs ht he]
          exact ih
      | tick ht =>
          rcases tick_cases Irata.compile_instructionSet hs with ⟨-, ht'⟩ | ⟨e, -, -, ht'⟩ |
            ⟨controls, d, -, -, hd, ht'⟩ | ⟨e, u, -, ht'⟩
          · cases ht.symm.trans ht'
            exact ih
          · cases ht.symm.trans ht'
          · cases ht.symm.trans ht'
            exact Datapath.step_memory hread hwrite hd ih
          · cases ht.symm.trans ht'

end Cpu

namespace Memory

/-- A byte of ROM. -/
def HoldsRom (m : Memory) (address : Word) (v : Byte) : Prop :=
  m.isRam address = false ∧ m.cell address = some v

/-- The addresses from 0x8000 on hold an image that no store changes. -/
def HoldsImage (m : Memory) (rom : List Byte) : Prop :=
  ∀ k (hk : k < rom.length), m.HoldsRom (BitVec.ofNat 16 (0x8000 + k)) rom[k]

theorem holdsImage_afterRead {m : Memory} {rom : List Byte} (address : Word)
    (h : m.HoldsImage rom) : (m.afterRead address).HoldsImage rom := by
  intro k hk
  obtain ⟨hram, hcell⟩ := h k hk
  exact ⟨(m.isRam_afterRead _ _).trans hram, (m.cell_afterRead _ _).trans hcell⟩

theorem holdsImage_writeAt {m m' : Memory} {rom : List Byte} {address : Word} {v : Byte}
    (hw : m.writeAt address v = .ok m') (h : m.HoldsImage rom) : m'.HoldsImage rom := by
  intro k hk
  obtain ⟨hram, hcell⟩ := h k hk
  have hne : BitVec.ofNat 16 (0x8000 + k) ≠ address := by
    rintro rfl
    -- a store to a ROM does not succeed
    obtain ⟨e, he⟩ := writeAt_of_rom hram hcell v
    rw [hw] at he
    cases he
  exact ⟨(isRam_writeAt hw _).trans hram, (cell_writeAt hw hne).trans hcell⟩

theorem holdsImage_host {m : Memory} {rom : List Byte} (index : Nat) (i : HostInput)
    (h : m.HoldsImage rom) : (m.host index i).HoldsImage rom := by
  intro k hk
  obtain ⟨hram, hcell⟩ := h k hk
  exact ⟨(m.isRam_host _ _ _).trans hram, (m.cell_host _ _ _).trans hcell⟩

/-- An image that is not empty is built as a factory builds it, and fits behind the RAM. -/
theorem build_of_newCartridgeRegion {rom : List Byte} {cartridge : Region} (hne : rom ≠ [])
    (h : Cpu.newCartridgeRegion rom = .ok cartridge) :
    (RegionFactory.romData "cartridge" 0x8000 rom).build = .ok cartridge ∧
      rom.length ≤ 0x8000 := by
  have hbuild : (RegionFactory.romData "cartridge" 0x8000 rom).build = .ok cartridge := by
    unfold Cpu.newCartridgeRegion at h
    rw [List.isEmpty_eq_false_iff.mpr hne] at h
    exact h
  refine ⟨hbuild, ?_⟩
  obtain ⟨hoffset, hsize, -, -⟩ := RegionFactory.build_spec hbuild
  have hsize' : cartridge.size = rom.length := hsize
  -- an aligned window that begins at 0x8000 is at most as large
  have haligned := cartridge.aligned
  rw [hoffset, hsize'] at haligned
  exact Nat.le_of_dvd (by decide) (Nat.dvd_of_mod_eq_zero haligned)

/-- The cartridge of a new CPU holds its image. -/
theorem holdsImage_new {rom : List Byte} {ram cartridge : Region} {extraRegions : List Region}
    {memory : Memory} (hcartridge : Cpu.newCartridgeRegion rom = .ok cartridge)
    (hmem : Memory.new (ram :: cartridge :: extraRegions) = .ok memory) :
    memory.HoldsImage rom := by
  intro k hk
  have hne : rom ≠ [] := List.ne_nil_of_length_pos (by omega)
  obtain ⟨hbuild, hle⟩ := build_of_newCartridgeRegion hne hcartridge
  obtain ⟨hoffset, hsize, hram, hcell⟩ := RegionFactory.build_spec hbuild
  have hsize' : cartridge.size = rom.length := hsize
  have hnat : (BitVec.ofNat 16 (0x8000 + k)).toNat = 0x8000 + k := by
    rw [BitVec.toNat_ofNat]
    omega
  have hbase : cartridge.offset.toNat = 0x8000 := by
    rw [hoffset]
    rfl
  have hcontains : cartridge.contains (BitVec.ofNat 16 (0x8000 + k)) = true := by
    rw [Region.contains_iff (by omega), hnat, hbase]
    omega
  have hmember : cartridge ∈ memory.regions := by
    unfold Memory.new at hmem
    split at hmem
    · cases hmem
    · cases hmem
      exact List.mem_cons_of_mem _ List.mem_cons_self
  have hfind := find?_of_contains hmember hcontains
  unfold HoldsRom isRam cell
  rw [hfind]
  refine ⟨hram, ?_⟩
  show cartridge.module.cell (cartridge.translate _) = _
  rw [hcell _ (cartridge.translate_lt _ hcontains), cartridge.translate_toNat _ hcontains, hnat]
  show some (rom.getD (0x8000 + k - cartridge.offset.toNat) 0) = _
  rw [hbase, Nat.add_sub_cancel_left, List.getD_eq_getElem?_getD, List.getElem?_eq_getElem hk]
  rfl

end Memory

/-! ## What an instruction of the source does -/

namespace Arch

/-- An immediate operand takes the place of the byte that is read. -/
def execValue (s : Arch) (v : Byte) : Isa.Action → Arch
  | .load r => (s.setReg r v).setFlags v
  | .accumulate f =>
      let w := f.value s.a v (Status.value .carry s.status)
      ((s.afterAlu f.code s.a v).setReg .a w).setFlags w
  | .compare r => ((s.assign .carry true).afterAlu 0x2 (s.reg r) v).setFlags (s.reg r - v)
  | .bit => s.setFlags (s.a &&& v)
  | _ => s

/-- The word that a pointer on the zero page points at. -/
def pointee (s : Arch) (p : Byte) : Word :=
  Word.ofBytes (s.look (zeroPage (p + 1))) (s.look (zeroPage p))

/-- The address that an operand stands for, given its value. -/
def effective (s : Arch) (mode : AddressingMode) (v : Nat) : Word :=
  match mode with
  | .imp | .imm | .rel => 0
  | .zp => zeroPage (BitVec.ofNat 8 v)
  | .zpx => zeroPage (BitVec.ofNat 8 v + s.x)
  | .zpy => zeroPage (BitVec.ofNat 8 v + s.y)
  | .abs | .ind => BitVec.ofNat 16 v
  | .abx => BitVec.ofNat 16 v + s.x.setWidth 16
  | .aby => BitVec.ofNat 16 v + s.y.setWidth 16
  | .izx => s.pointee (BitVec.ofNat 8 v + s.x)
  | .izy => s.pointee (BitVec.ofNat 8 v) + s.y.setWidth 16

/-- The state behind an instruction. -/
def behind (s : Arch) (i : InstructionInfo) : Arch :=
  { s with pc := s.pc + BitVec.ofNat 16 (1 + i.addressingMode.operands) }

/-- What an instruction does, given the value of its operand: a branch goes to the value, and no byte
of the code is read. -/
def perform (s : Arch) (i : InstructionInfo) (v : Nat) : Except SimError Arch :=
  match i.addressingMode with
  | .imm => .ok ((s.behind i).execValue (BitVec.ofNat 8 v) (actionOn i s.status))
  | .rel =>
      .ok (if actionOn i s.status = .branch then { s.behind i with pc := BitVec.ofNat 16 v }
        else s.behind i)
  | mode => (s.behind i).exec (s.effective mode v) (actionOn i s.status)

/-- Reading a stored byte changes nothing. -/
theorem read_of_cell {s : Arch} {address : Word} {v : Byte}
    (h : s.memory.cell address = some v) : s.read address = s := by
  unfold read
  rw [Memory.afterRead_of_cell h]

theorem look_of_cell {s : Arch} {address : Word} {v : Byte}
    (h : s.memory.cell address = some v) : s.look address = v := Memory.byteAt_of_cell h

theorem next_of_cell {s : Arch} {v : Byte} (h : s.memory.cell s.pc = some v) :
    s.next = { s with pc := s.pc + 1 } := by
  unfold next
  rw [read_of_cell h]

/-- Following a pointer on the zero page changes nothing. -/
theorem pointer_of_lowRam {s : Arch} (h : s.memory.LowRam) (p : Byte) :
    s.pointer p = ⟨s.pointee p, [zeroPage p, zeroPage (p + 1)], s⟩ := by
  obtain ⟨low, hlow⟩ := Memory.cell_of_isRam (h.zeroPage p)
  obtain ⟨high, hhigh⟩ := Memory.cell_of_isRam (h.zeroPage (p + 1))
  unfold pointer pointee
  rw [read_of_cell hlow, read_of_cell hhigh]

/-- The kinds of actions that an instruction with an immediate operand has. -/
def usesValue : Isa.Action → Bool
  | .load _ | .accumulate _ | .compare _ | .bit => true
  | _ => false

theorem usesValue_of_immediate {i : InstructionInfo} (hi : i ∈ Isa.instructions)
    (hmode : i.addressingMode = .imm) (status : Byte) : usesValue (actionOn i status) = true := by
  have hall : ∀ i ∈ Isa.instructions, i.addressingMode = .imm →
      i.mnemonic.condition = none ∧ usesValue (i.mnemonic.action i.addressingMode) = true := by
    decide +kernel
  obtain ⟨hcondition, haction⟩ := hall i hi hmode
  unfold actionOn
  rw [hcondition]
  exact haction

theorem exec_of_cell {s : Arch} {address : Word} {v : Byte} (h : s.memory.cell address = some v)
    {action : Isa.Action} (ha : usesValue action = true) :
    s.exec address action = .ok (s.execValue v action) := by
  cases action with
  | load r =>
      show Except.ok (((s.read address).setReg r (s.look address)).setFlags (s.look address)) = _
      rw [read_of_cell h, look_of_cell h]
      rfl
  | accumulate f =>
      unfold exec
      rw [read_of_cell h, look_of_cell h]
      rfl
  | compare r =>
      unfold exec
      rw [read_of_cell h, look_of_cell h]
      rfl
  | bit =>
      unfold exec
      rw [read_of_cell h, look_of_cell h]
      rfl
  | _ => cases ha

theorem branch_or_skip {i : InstructionInfo} (hi : i ∈ Isa.instructions)
    (hmode : i.addressingMode = .rel) (status : Byte) :
    actionOn i status = .branch ∨ actionOn i status = .skip := by
  obtain ⟨-, hbranch, hskip⟩ := action_relative hi hmode
  have hmem := Cpu.actionOn_mem i status
  rw [hbranch, hskip] at hmem
  exact List.mem_pair.mp hmem

section Execute

variable {s : Arch} {i : InstructionInfo} {opcode : Byte} (h : s.memory.cell s.pc = some opcode)

include h

theorem execute_implied (hmode : i.addressingMode.operands = 0) (v : Nat) :
    s.execute i = s.perform i v := by
  have himp : i.addressingMode = .imp := by
    cases hm : i.addressingMode <;> rw [hm] at hmode <;> first | rfl | cases hmode
  unfold execute operand perform behind
  rw [himp, next_of_cell h]
  rfl

/-- An operand of one byte that is not a displacement. -/
theorem execute_byte (hi : i ∈ Isa.instructions) (hram : s.memory.LowRam)
    (hmode : i.addressingMode.operands = 1) (hrel : i.addressingMode ≠ .rel) {v : Nat}
    (hv : s.memory.cell (s.pc + 1) = some (BitVec.ofNat 8 v)) :
    s.execute i = s.perform i v := by
  have hlook : s.look (s.pc + 1) = BitVec.ofNat 8 v := look_of_cell hv
  have hpc : s.pc + 1 + 1 = s.pc + 2 := by
    rw [BitVec.add_assoc]
    rfl
  have hnext : ({ s with pc := s.pc + 1 } : Arch).next = { s with pc := s.pc + 2 } := by
    rw [next_of_cell (s := { s with pc := s.pc + 1 }) hv, ← hpc]
  -- the operand byte is behind the opcode, and the next instruction behind it
  have hbehind : s.behind i = { s with pc := s.pc + 2 } := by
    unfold behind
    rw [hmode]
    rfl
  unfold execute operand perform
  rw [next_of_cell h, hbehind]
  cases hm : i.addressingMode with
  | imp | abs | ind | abx | aby =>
      rw [hm] at hmode
      cases hmode
  | rel => exact absurd hm hrel
  | imm =>
      show ({ s with pc := s.pc + 1 + 1 } : Arch).exec (s.pc + 1) _ = _
      rw [hpc]
      exact exec_of_cell (s := { s with pc := s.pc + 2 }) hv (usesValue_of_immediate hi hm _)
  | zp | zpx | zpy =>
      unfold locate
      rw [hnext]
      show ({ s with pc := s.pc + 2 } : Arch).exec _ _ = _
      unfold effective
      rw [← hlook]
      rfl
  | izx =>
      unfold locate
      rw [hnext]
      show (({ s with pc := s.pc + 2 } : Arch).pointer (s.look (s.pc + 1) + s.x)).arch.exec
        (({ s with pc := s.pc + 2 } : Arch).pointer (s.look (s.pc + 1) + s.x)).address _ = _
      rw [pointer_of_lowRam (s := { s with pc := s.pc + 2 }) hram, hlook]
      rfl
  | izy =>
      unfold locate
      rw [hnext]
      show (({ s with pc := s.pc + 2 } : Arch).pointer (s.look (s.pc + 1))).arch.exec
        ((({ s with pc := s.pc + 2 } : Arch).pointer (s.look (s.pc + 1))).address +
          s.y.setWidth 16) _ = _
      rw [pointer_of_lowRam (s := { s with pc := s.pc + 2 }) hram, hlook]
      rfl

/-- A displacement that has been computed from the address of the instruction. -/
theorem execute_relative (hi : i ∈ Isa.instructions) (hmode : i.addressingMode = .rel)
    {v : Nat} {d : Int} (hd : (v : Int) = s.pc.toNat + 2 + d) (hlow : -128 ≤ d) (hhigh : d ≤ 127)
    (hv : s.memory.cell (s.pc + 1) = some (BitVec.ofInt 8 d)) :
    s.execute i = s.perform i v := by
  have hpc : s.pc + 1 + 1 = s.pc + 2 := by
    rw [BitVec.add_assoc]
    rfl
  have hbehind : s.behind i = { s with pc := s.pc + 2 } := by
    unfold behind
    rw [hmode]
    rfl
  unfold execute operand perform
  rw [next_of_cell h, hbehind, hmode]
  show ({ s with pc := s.pc + 1 + 1 } : Arch).exec (s.pc + 1) _ = .ok (if _ then _ else _)
  rw [hpc]
  have hread := read_of_cell (s := { s with pc := s.pc + 2 }) hv
  obtain haction | haction := branch_or_skip hi hmode s.status
  · have hlook := look_of_cell (s := { s with pc := s.pc + 2 }) hv
    rw [haction, if_pos rfl]
    show Except.ok ({ ({ s with pc := s.pc + 2 } : Arch).read (s.pc + 1) with
      pc := s.pc + 2 + (({ s with pc := s.pc + 2 } : Arch).look (s.pc + 1)).signExtend 16 }) = _
    rw [hread, hlook, add_displacement hd hlow hhigh]
  · rw [haction, if_neg (by decide)]
    exact congrArg Except.ok hread

/-- An operand of two bytes. -/
theorem execute_word (hmode : i.addressingMode.operands = 2) {v : Nat} (hle : v ≤ 0xFFFF)
    (hlow : s.memory.cell (s.pc + 1) = some (BitVec.ofNat 8 (v % 256)))
    (hhigh : s.memory.cell (s.pc + 2) = some (BitVec.ofNat 8 (v / 256))) :
    s.execute i = s.perform i v := by
  have hpc : s.pc + 1 + 1 = s.pc + 2 := by
    rw [BitVec.add_assoc]
    rfl
  have hpc' : s.pc + 2 + 1 = s.pc + 3 := by
    rw [BitVec.add_assoc]
    rfl
  have hword : Word.ofBytes (BitVec.ofNat 8 (v / 256)) (BitVec.ofNat 8 (v % 256)) =
      BitVec.ofNat 16 v := by
    apply BitVec.eq_of_toNat_eq
    rw [Word.toNat_ofBytes, BitVec.toNat_ofNat, BitVec.toNat_ofNat, BitVec.toNat_ofNat]
    omega
  have hnext : ({ s with pc := s.pc + 1 } : Arch).next = { s with pc := s.pc + 2 } := by
    rw [next_of_cell (s := { s with pc := s.pc + 1 }) hlow, ← hpc]
  have hnext' : ({ s with pc := s.pc + 2 } : Arch).next = { s with pc := s.pc + 3 } := by
    rw [next_of_cell (s := { s with pc := s.pc + 2 }) hhigh, ← hpc']
  have habsolute : ({ s with pc := s.pc + 1 } : Arch).absolute =
      ⟨BitVec.ofNat 16 v, [s.pc + 1, s.pc + 2], { s with pc := s.pc + 3 }⟩ := by
    unfold absolute
    rw [hnext, hnext']
    show Located.mk (Word.ofBytes (s.look (s.pc + 1 + 1)) (s.look (s.pc + 1)))
      [s.pc + 1, s.pc + 1 + 1] _ = _
    rw [hpc, look_of_cell hlow, look_of_cell hhigh, hword]
  have hbehind : s.behind i = { s with pc := s.pc + 3 } := by
    unfold behind
    rw [hmode]
    rfl
  unfold execute operand perform
  rw [next_of_cell h, hbehind]
  cases hm : i.addressingMode with
  | imp | imm | zp | zpx | zpy | izx | izy | rel =>
      rw [hm] at hmode
      cases hmode
  | abs | ind | abx | aby =>
      unfold locate
      rw [habsolute]
      rfl

end Execute

/-- The operand of a statement has a value, if the instruction has an operand. -/
def OperandValue (value : Operand → Option Nat) (stmt : InstructionStmt) (i : InstructionInfo)
    (v : Nat) : Prop :=
  i.addressingMode.operands ≠ 0 →
    ∃ operand, stmt.operands.head? = some operand ∧ value operand = some v

/-- The bytes of a statement make the CPU do what the statement says. -/
theorem execute_of_encodes {s : Arch} {value : Operand → Option Nat} {a : Nat}
    {stmt : InstructionStmt} {bytes : List Byte} (henc : Encodes value a (.instruction stmt) bytes)
    (hram : s.memory.LowRam) (ha : a < 2 ^ 16) (hpc : s.pc = BitVec.ofNat 16 a)
    (hcells : ∀ k (hk : k < bytes.length),
      s.memory.cell (BitVec.ofNat 16 (a + k)) = some bytes[k]) :
    ∃ i ∈ Isa.instructions, selectInstruction stmt = .ok i ∧ s.look s.pc = i.opcode ∧
      ∃ v, OperandValue value stmt i v ∧ s.execute i = s.perform i v := by
  have haddress : ∀ k, BitVec.ofNat 16 (a + k) = s.pc + BitVec.ofNat 16 k := by
    intro k
    rw [hpc, ← BitVec.ofNat_add]
  have hnat : s.pc.toNat = a := by
    rw [hpc, BitVec.toNat_ofNat]
    omega
  have hzero : s.pc + BitVec.ofNat 16 0 = s.pc := BitVec.add_zero s.pc
  simp only [haddress] at hcells
  -- one case for each shape that the assembler gives an instruction
  cases henc with
  | @implied _ i hselect hmode =>
      have hfirst := hcells 0 Nat.zero_lt_one
      rw [hzero] at hfirst
      refine ⟨i, mem_of_selectInstruction hselect, hselect, look_of_cell hfirst, 0, ?_, ?_⟩
      · intro hne
        exact absurd hmode hne
      · exact execute_implied hfirst hmode 0
  | @byte _ i operand operands v hselect hmode hrel hoperand hvalue hv =>
      have hfirst := hcells 0 Nat.zero_lt_two
      rw [hzero] at hfirst
      have hi := mem_of_selectInstruction hselect
      refine ⟨i, hi, hselect, look_of_cell hfirst, v, ?_, ?_⟩
      · intro hne
        exact ⟨operand, by rw [hoperand]; rfl, hvalue⟩
      · exact execute_byte hfirst hi hram hmode hrel (hcells 1 Nat.one_lt_two)
  | @relative _ i operand operands v d hselect hmode hoperand hvalue hv hd hlow hhigh =>
      have hfirst := hcells 0 Nat.zero_lt_two
      rw [hzero] at hfirst
      have hi := mem_of_selectInstruction hselect
      refine ⟨i, hi, hselect, look_of_cell hfirst, v, ?_, ?_⟩
      · intro hne
        exact ⟨operand, by rw [hoperand]; rfl, hvalue⟩
      · rw [← hnat] at hd
        exact execute_relative hfirst hi hmode hd hlow hhigh (hcells 1 Nat.one_lt_two)
  | @word _ i operand operands v hselect hmode hoperand hvalue hv =>
      have hfirst := hcells 0 (Nat.le_of_ble_eq_true rfl)
      rw [hzero] at hfirst
      refine ⟨i, mem_of_selectInstruction hselect, hselect, look_of_cell hfirst, v, ?_, ?_⟩
      · intro hne
        exact ⟨operand, by rw [hoperand]; rfl, hvalue⟩
      · exact execute_word hfirst hmode hv (hcells 1 (Nat.le_of_ble_eq_true rfl))
          (hcells 2 (Nat.le_of_ble_eq_true rfl))

end Arch

/-! ## Running an assembled program -/

namespace Cpu

/-- In every run of a cartridge its image stays where it is, whatever the devices do. -/
theorem holdsImage_run {rom : List Byte} {extraRegions : List Region} {cpu t : Cpu} {entry : Word}
    (hnew : Cpu.new Irata.program rom extraRegions = .ok cpu) (hrun : Run (cpu.setEntry entry) t) :
    rom.length ≤ 0x8000 ∧ t.datapath.memory.HoldsImage rom := by
  have hload := loaded_setEntry (loaded_new hnew) entry
  obtain ⟨ram, -, h⟩ := bind_eq_ok.mp hnew
  obtain ⟨cartridge, hcartridge, h⟩ := bind_eq_ok.mp h
  obtain ⟨memory, hmem, h⟩ := bind_eq_ok.mp h
  obtain ⟨m, -, h⟩ := bind_eq_ok.mp h
  cases h
  refine ⟨?_, ?_⟩
  · by_cases hne : rom = []
    · rw [hne]
      exact Nat.zero_le _
    · exact (Memory.build_of_newCartridgeRegion hne hcartridge).2
  · refine memory_run (P := fun m => m.HoldsImage rom)
      (fun _ address h => Memory.holdsImage_afterRead address h)
      (fun _ _ _ _ hw h => Memory.holdsImage_writeAt hw h)
      (fun _ index i h => Memory.holdsImage_host index i h) hload ?_ hrun
    exact Memory.holdsImage_afterRead entry (Memory.holdsImage_new hcartridge hmem)

/-- In every run of an assembled program the image stays what the assembler made it, and where the
program counter comes to an instruction of the source the CPU does what that instruction says, with
the values of labels and constants; and a label has the address at which it is placed. -/
theorem runs_assembled {Path : Type} [DecidableEq Path] {host : Host Path} {levels : Nat}
    {source filename : Text} {options : AssemblerOptions} {program : Program}
    {result : AssemblerResult} (horigin : options.origin = 0x8000)
    (hexpand : expand host levels source filename = some (.ok program))
    (hdisjoint : (emitted options.origin.toNat program.statements).Nodup)
    (hassemble : assemble host levels source filename options = some (.ok result))
    {extraRegions : List Region} {cpu : Cpu}
    (hnew : Cpu.new Irata.program result.rom extraRegions = .ok cpu) :
    ∃ pass, firstPass program options = .ok pass ∧
      (∀ a decl, (a, Statement.label decl) ∈ placed options.origin.toNat program.statements →
        OrderedMap.find pass.symbols decl.name = some (BitVec.ofNat 16 a)) ∧
      ∀ t, Run (cpu.setEntry result.header.entry) t → t.datapath.memory.HoldsImage result.rom ∧
        ∀ a stmt, (a, Statement.instruction stmt) ∈ placed options.origin.toNat program.statements →
          t.AtBoundary → t.takesInterrupt = false → t.datapath.pc = BitVec.ofNat 16 a →
            ∃ i ∈ Isa.instructions, selectInstruction stmt = .ok i ∧
              ∃ v, Arch.OperandValue pass.value stmt i v ∧
                (∀ t', Executes t t' → t.datapath.arch.perform i v = .ok t'.datapath.arch) ∧
                ∀ s, t.datapath.arch.perform i v = .ok s →
                  ∃ t', Executes t t' ∧ t'.datapath.arch = s := by
  obtain ⟨program', pass, hexpand', hpass, hencode⟩ := assemble_eq_ok hassemble
  rw [hexpand'] at hexpand
  cases hexpand
  obtain ⟨-, hplaced⟩ := wellPlaced_of_passes hdisjoint hpass hencode
  refine ⟨pass, hpass, fun a decl hmem => (hplaced.label a decl hmem).2, ?_⟩
  intro t hrun
  obtain ⟨hlength, himage⟩ := holdsImage_run hnew hrun
  refine ⟨himage, ?_⟩
  intro a stmt hmem hb hirq hpc
  obtain ⟨bytes, henc, hbytes⟩ := hplaced.statement a (.instruction stmt) hmem
  have horigin' : options.origin.toNat = 0x8000 := by
    rw [horigin]
    rfl
  -- every byte of the statement is one of the image
  have hcells : ∀ k (hk : k < bytes.length),
      t.datapath.arch.memory.cell (BitVec.ofNat 16 (a + k)) = some bytes[k] := by
    intro k hk
    obtain ⟨hle, hrom⟩ := hbytes k hk
    obtain ⟨hlt, hget⟩ := List.getElem?_eq_some_iff.mp hrom
    have hcell := (himage _ hlt).2
    rw [hget, horigin', show 0x8000 + (a - 0x8000 + k) = a + k by omega] at hcell
    exact hcell
  have ha : a < 2 ^ 16 := by
    have hpos : 0 < bytes.length := by
      cases henc <;> exact Nat.succ_pos _
    obtain ⟨-, hrom⟩ := hbytes 0 hpos
    obtain ⟨hlt, -⟩ := List.getElem?_eq_some_iff.mp hrom
    omega
  obtain ⟨i, hi, hselect, hlook, v, hvalue, hexec⟩ :=
    Arch.execute_of_encodes henc hb.lowRam ha hpc hcells
  have hnext : t.nextOpcode = i.opcode := (nextOpcode_of_not_taken hirq).trans hlook
  refine ⟨i, hi, hselect, v, hvalue, ?_, ?_⟩
  · intro t' hexecutes
    rw [← hexec]
    exact (execute_of_executes hb hi hnext hexecutes).1
  · intro s hs
    rw [← hexec] at hs
    obtain ⟨t', hexecutes, harch, -⟩ := exists_executes hb hi hnext hs
    exact ⟨t', hexecutes, harch⟩

/-- The image of the program with a forward reference. -/
def forwardRom : List Byte := [0xD3, 0x04, 0x80, 0xFF, 0x01, 0x02, 0xFF, 0xFF]

theorem isPowerOfTwo_forwardRom : isPowerOfTwo forwardRom.length = true := by decide

theorem aligned_forwardRom : (0x8000 : Word).toNat % forwardRom.length = 0 := by decide

def forwardCartridge : Region :=
  ⟨"cartridge", 0x8000, forwardRom.length, .rom forwardRom.get, isPowerOfTwo_forwardRom,
    aligned_forwardRom⟩

def forwardMemory : Memory :=
  ⟨[ramRegion, forwardCartridge], disjoint_of_firstOverlap (by rfl)⟩

/-- The jump of the program, as it is placed. -/
def forwardJump : InstructionStmt :=
  match forwardProgram.statements with
  | _ :: .instruction stmt :: _ => stmt
  | _ => {}

/-- A CPU at the first instruction of the program, which jumps over the gap. -/
theorem runs_assembled_forward : ∃ (t : Cpu) (pass : FirstPassResult) (i : InstructionInfo)
    (v : Nat), t.AtBoundary ∧ t.datapath.pc = 0x8000 ∧
      firstPass forwardProgram { romSize := 8 } = .ok pass ∧ i ∈ Isa.instructions ∧
      ∀ t', Executes t t' → t.datapath.arch.perform i v = .ok t'.datapath.arch := by
  obtain ⟨m, hm⟩ := exists_instructionMemory
  have hexpand : expand flatHost 1 forwardSource [] = some (.ok forwardProgram) := by
    decide +kernel
  have hassemble : assemble flatHost 1 forwardSource [] { romSize := 8 } =
      some (.ok forwardResult) := by
    decide +kernel
  obtain ⟨hdisjoint, hrom, hentry, hmem⟩ :
      (emitted 0x8000 forwardProgram.statements).Nodup ∧ forwardResult.rom = forwardRom ∧
      forwardResult.header.entry = 0x8000 ∧
      (0x8000, Statement.instruction forwardJump) ∈ placed 0x8000 forwardProgram.statements := by
    decide +kernel
  have hnew : Cpu.new Irata.program forwardResult.rom [] = .ok (initial forwardMemory m) := by
    rw [hrom]
    exact new_eq_ok.mpr ⟨forwardCartridge, forwardMemory, m, rfl, rfl, hm, rfl⟩
  have hload := loaded_setEntry (loaded_new hnew) forwardResult.header.entry
  have hop : ∃ i ∈ Isa.instructions, forwardMemory.byteAt 0x8000 = i.opcode := by
    exact ⟨⟨.jmp, 0xD3, .abs, []⟩, by decide, by decide⟩
  have hirq : ((initial forwardMemory m).setEntry forwardResult.header.entry).takesInterrupt =
      false := by
    rw [hentry]
    rfl
  have hb : ((initial forwardMemory m).setEntry forwardResult.header.entry).AtBoundary := by
    rw [hentry]
    rw [hentry] at hload
    exact ⟨hload, rfl, rfl, hop, Memory.lowRam_afterRead (lowRam_new hnew) _⟩
  have horigin : ({ romSize := 8 } : AssemblerOptions).origin = 0x8000 := rfl
  obtain ⟨pass, hpass, -, hruns⟩ := runs_assembled horigin hexpand hdisjoint hassemble hnew
  obtain ⟨i, hi, -, v, -, hexec, -⟩ := (hruns _ .refl).2 _ _ hmem hb hirq hentry
  exact ⟨_, pass, i, v, hb, hentry, hpass, hi, hexec⟩

end Cpu

end Irata2.Sim
