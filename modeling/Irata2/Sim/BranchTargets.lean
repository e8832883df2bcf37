import Irata2.Assembler.Layout
import Irata2.Sim.Addressing
import Irata2.Sim.Disassembler
import Irata2.Sim.Instruction

/-!
# Branch targets

The assembler subtracts a branch's target from the address behind it, the CPU adds the byte to the
program counter, and the disassembler adds it to the address that it prints: they name one target.
-/

namespace Irata2.Sim

open Isa Library

/-! ## Displacements -/

/-- A displacement that fits a byte is the byte's own after it is extended. -/
theorem signExtend_ofInt {d : Int} (hlow : -128 ≤ d) (hhigh : d ≤ 127) :
    (BitVec.ofInt 8 d).signExtend 16 = BitVec.ofInt 16 d := by
  apply BitVec.eq_of_toInt_eq
  rw [BitVec.toInt_signExtend, BitVec.toInt_ofInt, BitVec.toInt_ofInt]
  have hbyte : d.bmod (2 ^ 8) = d := by
    apply Int.bmod_eq_of_le
    · omega
    · omega
  have hword : d.bmod (2 ^ 16) = d := by
    apply Int.bmod_eq_of_le
    · omega
    · omega
  rw [hword]
  exact (congrArg (Int.bmod · _) hbyte).trans hbyte

/-- Adding the byte to the address behind the branch gives the target. -/
theorem add_displacement {address : Word} {v : Nat} {d : Int}
    (hd : (v : Int) = address.toNat + 2 + d) (hlow : -128 ≤ d) (hhigh : d ≤ 127) :
    address + 2 + (BitVec.ofInt 8 d).signExtend 16 = BitVec.ofNat 16 v := by
  have haddress : address = BitVec.ofInt 16 address.toNat := by
    rw [BitVec.ofInt_natCast, BitVec.ofNat_toNat, BitVec.setWidth_eq]
  have htwo : (2 : Word) = BitVec.ofInt 16 2 := rfl
  calc address + 2 + (BitVec.ofInt 8 d).signExtend 16
      = BitVec.ofInt 16 address.toNat + BitVec.ofInt 16 2 + BitVec.ofInt 16 d := by
        rw [signExtend_ofInt hlow hhigh, ← haddress, ← htwo]
    _ = BitVec.ofInt 16 (address.toNat + 2 + d) := by rw [BitVec.ofInt_add, BitVec.ofInt_add]
    _ = BitVec.ofNat 16 v := by rw [← hd, BitVec.ofInt_natCast]

/-! ## The branch instructions -/

/-- A relative instruction is conditional: it branches, or it skips its operand. -/
theorem action_relative {i : InstructionInfo} (hi : i ∈ instructions)
    (hrel : i.addressingMode = .rel) :
    i.mnemonic.condition.isSome ∧ i.mnemonic.action i.addressingMode = .branch ∧
      i.mnemonic.otherwise = .skip := by
  have hall : ∀ i ∈ instructions, i.addressingMode = .rel →
      i.mnemonic.condition.isSome ∧ i.mnemonic.action i.addressingMode = .branch ∧
        i.mnemonic.otherwise = .skip := by
    decide +kernel
  exact hall i hi hrel

/-- A branch is taken when its status bit has the value of its condition. -/
def Taken (i : InstructionInfo) (status : Byte) : Prop :=
  ∃ f v, i.mnemonic.condition = some (f, v) ∧ Status.value f status = v

theorem execute_relative {i : InstructionInfo} (hi : i ∈ instructions)
    (hrel : i.addressingMode = .rel) (s : Arch) :
    ∃ s', s.execute i = .ok s' ∧
      (Taken i s.status → s'.pc = s.pc + 2 + s.operandLow.signExtend 16) ∧
      (¬Taken i s.status → s'.pc = s.pc + 2) := by
  rcases action_relative hi hrel with ⟨hcondition, haction, hotherwise⟩
  rcases Option.isSome_iff_exists.mp hcondition with ⟨⟨f, v⟩, hfv⟩
  have htwo : s.pc + 1 + 1 = s.pc + 2 := BitVec.add_assoc _ _ _
  have hlocate : s.operand i = ⟨s.next.pc, [], { s.next with pc := s.next.pc + 1 }⟩ := by
    unfold Arch.operand
    rw [hrel]
    rfl
  unfold Arch.execute actionOn
  rw [hlocate, hfv, haction, hotherwise]
  by_cases htaken : Status.value f s.status = v
  · refine ⟨_, by simp only [if_pos htaken]; rfl, ?_, ?_⟩
    · intro _
      show s.pc + 1 + 1 + s.operandLow.signExtend 16 = _
      rw [htwo]
    · exact fun hnot => absurd ⟨f, v, hfv, htaken⟩ hnot
  · refine ⟨_, by simp only [if_neg htaken]; rfl, ?_, ?_⟩
    · rintro ⟨f', v', hfv', htaken'⟩
      rw [hfv] at hfv'
      cases hfv'
      exact absurd htaken' htaken
    · intro _
      exact htwo

/-! ## The three views of a branch -/

/-- The assembler accepts the branch in the item and encodes it with the offset. -/
structure EncodesBranch (pass : Assembler.FirstPassResult) (item : Assembler.Emittable)
    (i : InstructionInfo) (target : Word) (offset : Byte) : Prop where
  known : i ∈ instructions
  relative : i.addressingMode = .rel
  opcode : item.opcode = i.opcode
  operand : ∃ operand, item.operands.head? = some operand ∧
    pass.value operand = some target.toNat ∧
    Assembler.resolveRelativeOperand pass.symbols pass.constants operand item.address = .ok offset

/-- The CPU, wherever it is about to execute the two bytes at the address, goes to the target if the
branch is taken, and on to the next instruction if not. -/
def CpuBranches (i : InstructionInfo) (address target : Word) (offset : Byte) : Prop :=
  ∀ cpu : Cpu, cpu.AtBoundary → cpu.takesInterrupt = false → cpu.datapath.pc = address →
    cpu.datapath.memory.byteAt address = i.opcode → cpu.datapath.arch.operandLow = offset →
      (∃ cpu', cpu.Executes cpu') ∧ ∀ cpu', cpu.Executes cpu' →
        (Taken i cpu.datapath.status → cpu'.datapath.pc = target) ∧
        (¬Taken i cpu.datapath.status → cpu'.datapath.pc = address + 2)

/-- The disassembler prints the target of the two bytes at the address, whatever names there are. -/
def PrintsBranch (i : InstructionInfo) (address target : Word) (offset : Byte) : Prop :=
  ∀ labels options rest, (∀ e ∈ labels, e.2 ≠ []) →
    disassembleFrom labels options address (i.opcode :: offset :: rest) =
      labelLine labels options address ++
        (i.mnemonic.name.toList ++ ' ' :: targetText labels target ++
          comment options address i.opcode [offset]) ::
        disassembleFrom labels options (address + 2) rest

theorem cpuBranches {i : InstructionInfo} (hi : i ∈ instructions) (hrel : i.addressingMode = .rel)
    {address target : Word} {offset : Byte} (htarget : address + 2 + offset.signExtend 16 = target) :
    CpuBranches i address target offset := by
  intro cpu hb hirq hpc hbyte hoffset
  have hnext : cpu.nextOpcode = i.opcode := by
    unfold Cpu.nextOpcode
    rw [hirq, hpc]
    exact hbyte
  rcases execute_relative hi hrel cpu.datapath.arch with ⟨s', hexec, htaken, hnot⟩
  have harch : cpu.datapath.arch.pc = address := hpc
  rw [harch, hoffset] at htaken
  rw [harch] at hnot
  constructor
  · rcases Cpu.exists_executes hb hi hnext hexec with ⟨cpu', hcpu', -⟩
    exact ⟨cpu', hcpu'⟩
  · intro cpu' hcpu'
    have hsame := (Cpu.execute_of_executes hb hi hnext hcpu').1
    rw [hexec] at hsame
    cases hsame
    exact ⟨fun h => (htaken h).trans htarget, hnot⟩

theorem targetText_ne_nil {labels : List (Word × Text)} (h : ∀ e ∈ labels, e.2 ≠ [])
    (target : Word) : targetText labels target ≠ [] := by
  unfold targetText
  cases hfind : OrderedMap.find labels target with
  | none => exact List.cons_ne_nil _ _
  | some name => exact h _ (Table.mem_of_lookup hfind)

theorem printsBranch {i : InstructionInfo} (hi : i ∈ instructions) (hrel : i.addressingMode = .rel)
    {address target : Word} {offset : Byte} (htarget : address + 2 + offset.signExtend 16 = target) :
    PrintsBranch i address target offset := by
  intro labels options rest hlabels
  have hone : i.addressingMode.operands = 1 := by
    rw [hrel]
    rfl
  have hdecode : decodeAt i.opcode (offset :: rest) = some i := by
    apply decodeAt_eq_some hi
    rw [hone]
    exact Nat.succ_le_succ (Nat.zero_le _)
  have hoperand : formatOperand labels i.addressingMode [offset] address =
      targetText labels target := by
    rw [hrel, ← htarget]
    rfl
  have hne : (targetText labels target).isEmpty = false :=
    List.isEmpty_eq_false_iff.mpr (targetText_ne_nil hlabels target)
  rw [disassembleFrom, hdecode]
  simp only [hone, List.take_succ_cons, List.take_zero, List.drop_succ_cons, List.drop_zero]
  have haddress : address + 1 + BitVec.ofNat 16 1 = address + 2 := BitVec.add_assoc _ _ _
  rw [haddress, instructionLine, hoperand, hne]
  rfl

/-! ## The branches of a program -/

section Program

open Assembler

/-- The items of the first pass are those of its statements. -/
theorem item_of_firstPass {program : Program} {options : AssemblerOptions} {pass : FirstPassResult}
    (h : firstPass program options = .ok pass) :
    ∀ item ∈ pass.items, ∃ (address : Nat) (stmt : Statement), stmt.item? address = some item := by
  unfold firstPass at h
  have hinv := foldlM_invariant (P := fun pass : FirstPassResult => pass.cursor < 2 ^ 32 ∧
    ∀ item ∈ pass.items, ∃ (address : Nat) (stmt : Statement), stmt.item? address = some item)
    ?_ ?_ h
  · exact hinv.2
  · rintro pass stmt pass' - ⟨hcursor, hitems⟩ hadd
    have hadvances := advances_add hcursor hadd
    refine ⟨?_, ?_⟩
    · rw [hadvances.cursor]
      exact Nat.mod_lt _ (by decide)
    · intro item hitem
      rw [hadvances.items, List.mem_append, Option.mem_toList] at hitem
      rcases hitem with hitem | hitem
      · exact hitems item hitem
      · exact ⟨pass.cursor, stmt, hitem⟩
  · refine ⟨?_, fun item hitem => by cases hitem⟩
    show options.origin.toNat < 2 ^ 32
    have hlt := options.origin.isLt
    omega

theorem mem_of_selectInstruction {stmt : InstructionStmt} {info : InstructionInfo}
    (h : selectInstruction stmt = .ok info) : info ∈ instructions := by
  unfold selectInstruction at h
  rcases bind_eq_ok.mp h with ⟨modes, -, h⟩
  split at h
  · rename_i found hfound
    cases h
    rcases List.exists_of_findSome?_eq_some hfound with ⟨mode, -, hfind⟩
    exact List.mem_of_find?_eq_some hfind
  · cases h

/-- A relative item is that of an instruction with the mode. -/
theorem instruction_of_item {address : Nat} {stmt : Statement} {item : Emittable}
    (h : stmt.item? address = some item) (hrel : item.addressingMode = .rel) :
    ∃ instruction info, stmt = .instruction instruction ∧
      selectInstruction instruction = .ok info ∧ info.addressingMode = .rel ∧
      item.opcode = info.opcode ∧ item.operands = instruction.operands ∧
      item.operandBytes = 1 ∧ item.kind = .instruction := by
  cases stmt with
  | label decl => cases h
  | equ decl => cases h
  | directive directive =>
      by_cases htype : directive.type = .byte
      · simp only [Statement.item?, if_pos htype] at h
        cases h
        cases hrel
      · simp only [Statement.item?, if_neg htype] at h
        cases h
  | instruction instruction =>
      unfold Statement.item? at h
      cases hinfo : selectInstruction instruction with
      | error e =>
          simp only [hinfo] at h
          cases h
      | ok info =>
          simp only [hinfo] at h
          cases h
          refine ⟨instruction, info, rfl, hinfo, hrel, rfl, rfl, ?_, rfl⟩
          rw [show info.addressingMode = .rel from hrel]
          rfl

/-- An item that the second pass accepts is one that it has encoded. -/
theorem exists_add_of_foldlM {Path : Type} {host : Host Path} {sourceFile : Text}
    {options : AssemblerOptions} {pass : FirstPassResult} {items : List Emittable}
    {encoding encoding' : Encoding}
    (h : items.foldlM (Encoding.add host sourceFile options pass) encoding = .ok encoding')
    {item : Emittable} (hitem : item ∈ items) :
    ∃ e e', Encoding.add host sourceFile options pass e item = .ok e' := by
  induction items generalizing encoding with
  | nil => cases hitem
  | cons first items ih =>
      rcases foldlM_cons_eq_ok.mp h with ⟨mid, hmid, hrest⟩
      rcases List.mem_cons.mp hitem with rfl | hitem
      · exact ⟨encoding, mid, hmid⟩
      · exact ih hrest hitem

/-- An accepted branch has an operand that resolves. -/
theorem resolved_of_add {Path : Type} {host : Host Path} {sourceFile : Text}
    {options : AssemblerOptions} {pass : FirstPassResult} {item : Emittable}
    {encoding encoding' : Encoding} (hkind : item.kind = .instruction)
    (hrel : item.addressingMode = .rel) (hcount : item.operandBytes = 1)
    (h : Encoding.add host sourceFile options pass encoding item = .ok encoding') :
    ∃ operand offset, item.operands.head? = some operand ∧
      resolveRelativeOperand pass.symbols pass.constants operand item.address = .ok offset := by
  unfold Encoding.add at h
  rw [seq_eq_ok, seq_eq_ok] at h
  rcases h with ⟨-, -, h⟩
  simp only [hkind] at h
  unfold Encoding.addInstruction at h
  rw [if_pos hcount] at h
  cases hoperands : item.operands with
  | nil =>
      simp only [hoperands] at h
      cases h
  | cons operand operands =>
      simp only [hoperands, if_pos hrel, bind_eq_ok] at h
      rcases h with ⟨offset, hoffset, -⟩
      exact ⟨operand, offset, rfl, hoffset⟩

/-- Where no statement overwrites another, the ROM holds the branch. -/
theorem rom_of_branch {Path : Type} {host : Host Path} {program : Program} {sourceFile : Text}
    {options : AssemblerOptions} {pass : FirstPassResult} {result : AssemblerResult}
    (hdisjoint : (emitted options.origin.toNat program.statements).Nodup)
    (hpass : firstPass program options = .ok pass)
    (hencode : encode host sourceFile options pass = .ok result) {item : Emittable}
    (hitem : item ∈ pass.items) (hrel : item.addressingMode = .rel) {operand : Operand} {v : Nat}
    {d : Int} (hhead : item.operands.head? = some operand) (hv : pass.value operand = some v)
    (hd : (v : Int) = item.address.toNat + 2 + d) :
    result.rom[item.address.toNat - options.origin.toNat]? = some item.opcode ∧
      result.rom[item.address.toNat - options.origin.toNat + 1]? = some (BitVec.ofInt 8 d) := by
  have horigin : options.origin.toNat ≤ 2 ^ 16 := Nat.le_of_lt options.origin.isLt
  have hnone : (([] : List (Text × Word)).map Prod.fst).Nodup := List.nodup_nil
  have hsize : ∀ p ∈ placed options.origin.toNat program.statements, p.2.size ≤ 2 ^ 16 :=
    fun p hp => size_le_of_nodup ((List.nodup_flatMap.mp hdisjoint).1 p hp)
  rcases items_of_foldlM horigin hsize hnone hpass with ⟨hitems, -, -, hrange⟩
  rw [hitems, List.nil_append] at hitem
  rcases List.mem_filterMap.mp hitem with ⟨⟨a, stmt⟩, hmem, hstmt⟩
  rcases instruction_of_item hstmt hrel with
    ⟨instruction, i, rfl, hselect, hmode, hopcode, hoperands, -, -⟩
  have hle : a ≤ 0xFFFF := (hrange _ hmem).ranged.address (by rw [hstmt]; rfl)
  have haddress : item.address.toNat = a := by
    simp only [Statement.item?, hselect] at hstmt
    cases hstmt
    rw [BitVec.toNat_ofNat]
    exact Nat.mod_eq_of_lt (by omega)
  rcases (wellPlaced_of_passes hdisjoint hpass hencode).2.statement a _ hmem with
    ⟨bytes, hencodes, hrom⟩
  have hbytes : bytes = [i.opcode, BitVec.ofInt 8 d] := by
    cases hencodes with
    | implied h hnone =>
        rw [hselect] at h
        cases h
        rw [hmode] at hnone
        cases hnone
    | byte h _ hnot =>
        rw [hselect] at h
        cases h
        exact absurd hmode hnot
    | word h htwo =>
        rw [hselect] at h
        cases h
        rw [hmode] at htwo
        cases htwo
    | @relative _ info' operand' operands' v' d' h _ hlist hvalue _ hd' =>
        rw [hselect] at h
        cases h
        -- the operand and the address are those of the item
        rw [hoperands, hlist] at hhead
        cases hhead
        rw [hv] at hvalue
        cases hvalue
        have hsame : d' = d := by omega
        rw [hsame]
  rw [hbytes] at hrom
  have hfirst := (hrom 0 (by simp)).2
  have hsecond := (hrom 1 (by simp)).2
  rw [haddress, hopcode]
  exact ⟨hfirst, hsecond⟩

/-- Every branch of an accepted program has one target: it is the value of its operand, the CPU goes
there or on to the next instruction, and the disassembler prints it.  Where no other statement
writes the bytes of the branch, they are in the ROM. -/
theorem branch_targets_agree {Path : Type} [DecidableEq Path] {host : Host Path} {levels : Nat}
    {source filename : Text} {options : AssemblerOptions} {result : AssemblerResult}
    (h : assemble host levels source filename options = some (.ok result)) :
    ∃ program pass, expand host levels source filename = some (.ok program) ∧
      firstPass program options = .ok pass ∧ encode host filename options pass = .ok result ∧
      ∀ item ∈ pass.items, item.addressingMode = .rel → ∃ i target offset,
        EncodesBranch pass item i target offset ∧ CpuBranches i item.address target offset ∧
        PrintsBranch i item.address target offset ∧
        ((emitted options.origin.toNat program.statements).Nodup →
          result.rom[item.address.toNat - options.origin.toNat]? = some i.opcode ∧
          result.rom[item.address.toNat - options.origin.toNat + 1]? = some offset) := by
  rcases assemble_eq_ok h with ⟨program, pass, hexpand, hpass, hencode⟩
  refine ⟨program, pass, hexpand, hpass, hencode, ?_⟩
  intro item hitem hrel
  rcases item_of_firstPass hpass item hitem with ⟨a, stmt, hstmt⟩
  rcases instruction_of_item hstmt hrel with
    ⟨instruction, i, rfl, hselect, hmode, hopcode, hoperands, hcount, hkind⟩
  have hi := mem_of_selectInstruction hselect
  -- the second pass has resolved the operand
  have hloop : ∃ e e', Encoding.add host filename options pass e item = .ok e' := by
    have hencode' := hencode
    unfold encode at hencode'
    rw [seq_eq_ok, bind_eq_ok] at hencode'
    rcases hencode' with ⟨-, encoding, hfold, -⟩
    exact exists_add_of_foldlM hfold hitem
  rcases hloop with ⟨e, e', hadd⟩
  rcases resolved_of_add hkind hrel hcount hadd with ⟨operand, offset, hhead, hresolve⟩
  rcases resolveRelativeOperand_eq_ok pass hresolve with ⟨v, d, hv, hle, hd, hlow, hhigh, rfl⟩
  have htarget := add_displacement hd hlow hhigh
  have hvalue : (BitVec.ofNat 16 v).toNat = v := by
    rw [BitVec.toNat_ofNat]
    exact Nat.mod_eq_of_lt (by omega)
  refine ⟨i, BitVec.ofNat 16 v, BitVec.ofInt 8 d,
    ⟨hi, hmode, hopcode, operand, hhead, by rw [hvalue, hv], hresolve⟩,
    cpuBranches hi hmode htarget, printsBranch hi hmode htarget, ?_⟩
  intro hdisjoint
  rw [← hopcode]
  exact rom_of_branch hdisjoint hpass hencode hitem hrel hhead hv hd

def loopSource : Text := "loop: dex\nbne loop\n".toList

def loopResult : AssemblerResult :=
  match assemble flatHost 1 loopSource [] { romSize := 8 } with
  | some (.ok result) => result
  | _ => ⟨{}, [], []⟩

theorem branch_targets_agree_loop :
    ∃ program pass, expand flatHost 1 loopSource [] = some (.ok program) ∧
      firstPass program { romSize := 8 } = .ok pass ∧
      encode flatHost [] { romSize := 8 } pass = .ok loopResult ∧
      ∀ item ∈ pass.items, item.addressingMode = .rel → ∃ i target offset,
        EncodesBranch pass item i target offset ∧ CpuBranches i item.address target offset ∧
        PrintsBranch i item.address target offset ∧
        ((emitted 0x8000 program.statements).Nodup →
          loopResult.rom[item.address.toNat - 0x8000]? = some i.opcode ∧
          loopResult.rom[item.address.toNat - 0x8000 + 1]? = some offset) := by
  have hassemble : assemble flatHost 1 loopSource [] { romSize := 8 } = some (.ok loopResult) := by
    decide +kernel
  exact branch_targets_agree hassemble

end Program

end Irata2.Sim
