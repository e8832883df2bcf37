import Irata2.Microcode.Source
import Irata2.Sim.Microstep
import Irata2.Sim.Run

/-!
# The ROM refines the optimised representation

For every opcode, status and step the compiled ROM asserts the controls of that step of the one
variant whose conditions hold.
-/

namespace Irata2.Microcode

open Hdl Library

/-- Whether the conditions of a variant hold in a status register. -/
def InstructionVariant.holds (v : InstructionVariant) (status : Byte) : Bool :=
  v.statusConditions.all fun c =>
    Sim.StatusEncoder.statusMap.any fun f =>
      f.name == c.1 && status.getLsbD f.bitIndex == c.2

end Irata2.Microcode

namespace Irata2.Sim

open Hdl Library Microcode

section Status

variable {enc : Microcode.StatusEncoder} {references : List StatusBit}

theorem mem_statusMap (f : StatusBit) : f ∈ StatusEncoder.statusMap := by
  cases f <;> decide

theorem statusBit_name_injective : Function.Injective StatusBit.name := by
  intro f g h
  cases f <;> cases g <;> first | rfl | exact absurd h (by decide)

/-- The conditions of a variant, as a function of the names they bind. -/
theorem lookup_condition (v : InstructionVariant) (name : String) (value : Bool) :
    v.statusConditions.lookup name = some value ↔ (name, value) ∈ v.statusConditions := by
  have hnodup : (v.statusConditions.map Prod.fst).Nodup := by
    refine v.conditions_sorted.imp ?_
    rintro a b hab rfl
    exact String.lt_irrefl a hab
  have hcons : Table.Consistent v.statusConditions := by
    intro k a b ha hb
    exact congrArg Prod.snd (List.inj_on_of_nodup_map hnodup ha hb rfl)
  exact ⟨Table.mem_of_lookup, Table.lookup_of_mem hcons⟩

theorem holds_iff (v : InstructionVariant) (status : Byte) :
    v.holds status = true ↔
      ∀ name value, (name, value) ∈ v.statusConditions →
        ∃ f : StatusBit, f.name = name ∧ status.getLsbD f.bitIndex = value := by
  unfold InstructionVariant.holds
  rw [List.all_eq_true]
  constructor
  · intro h name value hmem
    rcases List.any_eq_true.mp (h (name, value) hmem) with ⟨f, -, hf⟩
    rw [Bool.and_eq_true, beq_iff_eq, beq_iff_eq] at hf
    exact ⟨f, hf⟩
  · rintro h ⟨name, value⟩ hmem
    rcases h name value hmem with ⟨f, hf⟩
    rw [List.any_eq_true]
    exact ⟨f, mem_statusMap f, by rw [Bool.and_eq_true, beq_iff_eq, beq_iff_eq]; exact hf⟩

theorem encode_mem_allStatuses
    (hbits : enc.bits = references.map fun f => ⟨f.name, f.bitIndex⟩) (status : Byte) :
    StatusEncoder.encode references status ∈ enc.allStatuses := by
  rw [Microcode.StatusEncoder.mem_allStatuses]
  intro j hj
  rcases ((StatusEncoder.getLsbD_encode references status j).mp hj).2 with ⟨f, hf, hfj⟩
  refine ⟨⟨f.name, f.bitIndex⟩, ?_, hfj⟩
  rw [hbits]
  exact List.mem_map_of_mem hf

/-- The status the simulator encodes is covered by a variant exactly when its conditions hold. -/
theorem encode_mem_statusesOf
    (hbits : enc.bits = references.map fun f => ⟨f.name, f.bitIndex⟩) {v : InstructionVariant}
    (hexp : ∃ statuses, enc.expandPartial v.statusConditions = .ok statuses) (status : Byte) :
    StatusEncoder.encode references status ∈ enc.statusesOf v ↔ v.holds status = true := by
  rcases hexp with ⟨statuses, hs⟩
  rw [Microcode.StatusEncoder.statusesOf_eq hs, Microcode.StatusEncoder.mem_expandPartial hs,
    holds_iff]
  constructor
  · rintro ⟨htrue, hfalse⟩ name value hmem
    have hname := (Microcode.StatusEncoder.expandPartial_eq hs).2 (name, value) hmem
    rw [hbits, List.map_map] at hname
    rcases List.mem_map.mp hname with ⟨f, hf, rfl⟩
    refine ⟨f, rfl, ?_⟩
    have hbit : (⟨f.name, f.bitIndex⟩ : StatusBitDefinition) ∈ enc.bits := by
      rw [hbits]
      exact List.mem_map_of_mem hf
    have hlookup := (lookup_condition v f.name value).mpr hmem
    cases value with
    | true => exact ((StatusEncoder.getLsbD_encode references status _).mp
        (htrue _ hbit hlookup)).1
    | false =>
        by_contra hset
        rw [Bool.not_eq_false] at hset
        -- a set bit would have to be allowed by a definition with the same index
        have henc := (StatusEncoder.getLsbD_encode references status f.bitIndex).mpr
          ⟨hset, f, hf, rfl⟩
        rcases hfalse _ henc with ⟨b, hb, hbj, hne⟩
        rw [hbits] at hb
        rcases List.mem_map.mp hb with ⟨g, -, rfl⟩
        have hg : g = f := StatusBit.bitIndex_injective hbj
        subst hg
        exact hne hlookup
  · intro h
    constructor
    · intro b hb hlookup
      rw [hbits] at hb
      rcases List.mem_map.mp hb with ⟨f, hf, rfl⟩
      rcases h _ _ ((lookup_condition v _ _).mp hlookup) with ⟨g, hg, hset⟩
      have hgf : g = f := statusBit_name_injective hg
      subst hgf
      exact (StatusEncoder.getLsbD_encode references status _).mpr ⟨hset, g, hf, rfl⟩
    · intro j hj
      rcases (StatusEncoder.getLsbD_encode references status j).mp hj with ⟨hset, f, hf, rfl⟩
      refine ⟨⟨f.name, f.bitIndex⟩, ?_, rfl, ?_⟩
      · rw [hbits]
        exact List.mem_map_of_mem hf
      · intro hlookup
        rcases h _ _ ((lookup_condition v _ _).mp hlookup) with ⟨g, hg, hclear⟩
        have hgf : g = f := statusBit_name_injective hg
        subst hgf
        rw [hset] at hclear
        cases hclear

end Status

section Compiled

variable {c : Compiler} {is ir : InstructionSet} {p : MicrocodeProgram} {m : InstructionMemory}

/-- Exactly one variant of an instruction holds in a status register, unless it has none. -/
theorem exists_unique_variant (hvalid : c.runAllValidators ir = .ok ())
    (henc : c.encode ir = .ok p) (hm : InstructionMemory.new cpuControls p = .ok m)
    {i : Instruction} (hi : i ∈ ir.instructions) (hne : i.variants ≠ []) (status : Byte) :
    ∃ v, i.variants.filter (·.holds status) = [v] ∧
      StatusEncoder.encode m.statusBits status ∈ c.statusEncoder.statusesOf v := by
  have hbits : c.statusEncoder.bits = m.statusBits.map fun f => ⟨f.name, f.bitIndex⟩ := by
    rw [← (encode_eq_ok.mp henc).2.2.2]
    exact (InstructionMemory.new_eq_ok hm).2.1
  rcases exists_variant_of_status (statusValid_of_runAllValidators hvalid hi) hne
    (encode_mem_allStatuses hbits status) with ⟨v, hv⟩
  have hiff : ∀ w ∈ i.variants,
      StatusEncoder.encode m.statusBits status ∈ c.statusEncoder.statusesOf w ↔
        w.holds status = true := fun w hw =>
    encode_mem_statusesOf hbits ((encode_eq_ok.mp henc).1 i hi w hw).statuses status
  refine ⟨v, ?_, ?_⟩
  · rw [← hv]
    refine List.filter_congr fun w hw => ?_
    rw [Bool.eq_iff_iff, decide_eq_true_eq]
    exact (hiff w hw).symm
  · have hmem : v ∈ i.variants.filter fun w =>
        decide (StatusEncoder.encode m.statusBits status ∈ c.statusEncoder.statusesOf w) := by
      rw [hv]
      exact List.mem_singleton_self v
    exact of_decide_eq_true (List.mem_filter.mp hmem).2

/-- The lookup of a step of the variant that holds. -/
theorem lookup_of_holds (hvalid : c.runAllValidators ir = .ok ()) (henc : c.encode ir = .ok p)
    (hm : InstructionMemory.new cpuControls p = .ok m) {i : Instruction}
    (hi : i ∈ ir.instructions) {v : InstructionVariant} (hv : v ∈ i.variants) {status : Byte}
    (hholds : v.holds status = true) {k : Nat} {s : Microcode.Step}
    (hs : v.steps[k]? = some s) :
    m.lookup i.opcode (BitVec.ofNat 8 k) (StatusEncoder.encode m.statusBits status) =
      .ok (InstructionMemory.decode (encodeControls s.controls)) := by
  rcases exists_unique_variant hvalid henc hm hi (List.ne_nil_of_mem hv) status with
    ⟨w, hw, hstatus⟩
  have hvw : v ∈ i.variants.filter (·.holds status) := List.mem_filter.mpr ⟨hv, hholds⟩
  rw [hw, List.mem_singleton] at hvw
  subst hvw
  exact InstructionMemory.lookup_of_isEntry henc hm ⟨hi, hv, hs, hstatus⟩

end Compiled

namespace Cpu

/-- Compilation and lookup preserve the microcode: in every state that a CPU reaches on a compiled
program, the Control phase asserts the controls of the current step of the one variant whose
conditions hold, and no other control that is released at the end of the tick. -/
theorem controlPhase_refines_ir {c : Compiler} {is : InstructionSet} {p : MicrocodeProgram}
    (hc : c.compile is = .ok p) {start : Cpu} (hload : start.Loaded p) :
    ∃ ir, c.optimizedIr is = .ok ir ∧
      ∀ i ∈ ir.instructions, i.variants ≠ [] → ∀ status : Byte,
        ∃ v, i.variants.filter (·.holds status) = [v] ∧
          ∀ cpu, Run start cpu → cpu.halted = false → cpu.irValue = i.opcode →
            cpu.datapath.status = status → ∀ s, v.steps[cpu.controller.sc.toNat]? = some s →
              ∃ cpu', controlPhase cpu = .ok () cpu' ∧
                ∀ d : Control, d.autoReset = true →
                  (cpu'.asserted d = true ↔ d ∈ s.controls) := by
  rcases exists_ir_of_compile hc with ⟨ir, hir, hvalid, henc⟩
  refine ⟨ir, hir, ?_⟩
  intro i hi hne status
  rcases exists_unique_variant hvalid henc hload.instructionMemory hi hne status with ⟨v, hv, -⟩
  refine ⟨v, hv, ?_⟩
  intro cpu hrun _ hopcode hstatus s hs
  have hmem : v ∈ i.variants.filter (·.holds status) := by
    rw [hv]
    exact List.mem_singleton_self v
  have hcpu := loaded_run hc hload hrun
  have hlookup : cpu.lookup = .ok (InstructionMemory.decode (encodeControls s.controls)) := by
    have h := lookup_of_holds hvalid henc hcpu.instructionMemory hi (List.mem_filter.mp hmem).1
      (List.mem_filter.mp hmem).2 hs
    rw [BitVec.ofNat_toNat, BitVec.setWidth_eq] at h
    unfold lookup encodedStatus
    rw [hopcode, hstatus]
    exact h
  refine ⟨_, controlPhase_eq hcpu.idle hlookup, ?_⟩
  intro d hd
  have hne : d ≠ .irqLine := by
    rintro rfl
    cases hd
  show assertedBy cpu _ d = true ↔ _
  unfold assertedBy
  rw [if_neg hne, decide_eq_true_eq, InstructionMemory.mem_decode_encodeControls]

/-! ## An instruction set with opcodes that have no variants -/

/-- A compiler without status bits. -/
def plainCompiler : Compiler := ⟨⟨[], StatusEncoder.bits_lt_nil⟩, .scIncrement, .scReset⟩

def haltVariant : InstructionVariant := ⟨[], [⟨0, [.halt, .irqLine]⟩], sorted_nil⟩

/-- Every opcode of the ISA, of which only the opcode the CPU starts with has a variant. -/
def sparseSet : InstructionSet where
  fetchPreamble := []
  instructions := Isa.instructions.map fun i =>
    ⟨i.opcode, if i.opcode = 0x02 then [haltVariant] else []⟩

theorem accepts_sparseSet : plainCompiler.Accepts sparseSet where
  increment := rfl
  reset := rfl
  preamble := fun s hs => (by cases hs)
  preamble_chain := List.IsChain.nil
  merged := fun s hs => (by cases hs)
  steps := by decide +kernel
  chain := by decide +kernel
  length := by decide +kernel
  statuses := by
    have hshape : ∀ i ∈ sparseSet.instructions, i.isUnconditional = true ∨ i.variants = [] := by
      decide +kernel
    exact fun i hi => statusValidateInstruction_of_isUnconditional (hshape i hi)
  coverage := by
    refine isaCoverageValidator_of_perm ?_
    unfold sparseSet
    rw [List.map_map]
    exact List.Perm.refl _

/-- The only step of the only variant, as it is compiled. -/
def haltStep : Microcode.Step := ⟨0, [.halt, .irqLine, .scReset]⟩

def sparseProgram : MicrocodeProgram :=
  ⟨[(0x20000, encodeControls haltStep.controls)], controlPaths, []⟩

theorem encode_sparseSet : plainCompiler.encode (compiled sparseSet) = .ok sparseProgram := by
  decide

theorem compile_sparseSet : plainCompiler.compile sparseSet = .ok sparseProgram :=
  bind_eq_ok.mpr ⟨_, Compiler.optimizedIr_eq accepts_sparseSet, encode_sparseSet⟩

/-- A CPU on the sparse set, before its first tick. -/
theorem exists_sparse :
    ∃ instructionMemory, Cpu.new sparseProgram [] [] = .ok (initial bareMemory instructionMemory) ∧
      instructionMemory.statusBits = [] ∧ instructionMemory.rom.size = 0x20001 ∧
      (initial bareMemory instructionMemory).lookup =
        .ok (InstructionMemory.decode (encodeControls haltStep.controls)) := by
  have hvalid := runAllValidators_of_optimizedIr (Compiler.optimizedIr_eq accepts_sparseSet)
  rcases @InstructionMemory.exists_new _ _ _ encode_sparseSet [] (by decide) rfl with
    ⟨rom, hrom⟩
  have hmem : (⟨0x02, [haltVariant]⟩ : Instruction) ∈ sparseSet.instructions := by
    decide
  have hlookup := @lookup_of_holds _ _ _ _ hvalid encode_sparseSet hrom _
    (List.mem_map_of_mem hmem) _ (List.mem_map_of_mem (List.mem_singleton_self haltVariant)) 0
    (by decide) 0 haltStep (by decide)
  have hburn := (InstructionMemory.new_eq_ok hrom).2.2
  rw [InstructionMemory.burn_eq] at hburn
  cases hburn
  exact ⟨_, new_eq new_bareMemory hrom, rfl, rfl, hlookup⟩

/-- The first tick of that CPU halts it, with the step counter back at zero. -/
theorem tick_sparse {instructionMemory : InstructionMemory}
    (hload : (initial bareMemory instructionMemory).Loaded sparseProgram)
    (hl : (initial bareMemory instructionMemory).lookup =
      .ok (InstructionMemory.decode (encodeControls haltStep.controls))) :
    (initial bareMemory instructionMemory).assertedBy
        (InstructionMemory.decode (encodeControls haltStep.controls)) =
          Datapath.on haltStep.controls ∧
      tick (initial bareMemory instructionMemory) =
        .ok () ((initial bareMemory instructionMemory).afterTick (Datapath.on haltStep.controls)
          (initial bareMemory instructionMemory).datapath) := by
  have hasserted : (initial bareMemory instructionMemory).assertedBy
      (InstructionMemory.decode (encodeControls haltStep.controls)) =
        Datapath.on haltStep.controls := by
    funext c
    unfold assertedBy irqLevel Datapath.on
    have hno : bareMemory.irqLevels.getLast? = none := by rfl
    show (if c = .irqLine then bareMemory.irqLevels.getLast?.getD _ else _) = _
    simp only [hno, InstructionMemory.mem_decode_encodeControls]
    by_cases hc : c = .irqLine
    · rw [if_pos hc, hc, Option.getD_none]
      exact Bool.or_false _
    · rw [if_neg hc]
  refine ⟨hasserted, ?_⟩
  rw [← hasserted]
  refine tick_of_step hload.idle rfl hl (respectsBuses_of_lookup compile_sparseSet hload hl) ?_
  rw [hasserted, Datapath.step_on]
  rfl

/-- Three ways in which the controls of a tick are not those of a step of one variant: an opcode
without variants, the latched line, and a CPU that has halted. -/
theorem controlPhase_not_refines :
    ∃ cpu, plainCompiler.compile sparseSet = .ok sparseProgram ∧
      Cpu.new sparseProgram [] [] = .ok cpu ∧
      plainCompiler.optimizedIr sparseSet = .ok (compiled sparseSet) ∧
      (∃ i ∈ (compiled sparseSet).instructions, i.opcode = 0x01 ∧
        ∀ status : Byte, i.variants.filter (·.holds status) = []) ∧
      (∃ i ∈ (compiled sparseSet).instructions, ∃ v ∈ i.variants, ∃ s ∈ v.steps,
        i.opcode = cpu.irValue ∧ v.steps[cpu.controller.sc.toNat]? = some s ∧
          v.holds cpu.datapath.status = true ∧
          Control.irqLine ∈ s.controls ∧ Control.irqLine.autoReset = false ∧
          ∃ t, tick cpu = .ok () t ∧ i.opcode = t.irValue ∧
            v.steps[t.controller.sc.toNat]? = some s ∧ v.holds t.datapath.status = true ∧
            Control.halt ∈ s.controls ∧ tick t = .ok () t ∧ t.asserted .halt = false) := by
  rcases exists_sparse with ⟨instructionMemory, hnew, -, -, hl⟩
  rcases tick_sparse (loaded_new hnew) hl with ⟨-, htick⟩
  refine ⟨_, compile_sparseSet, hnew, Compiler.optimizedIr_eq accepts_sparseSet, ?_, ?_⟩
  · have hmem : (⟨0x01, []⟩ : Instruction) ∈ sparseSet.instructions := by decide
    exact ⟨_, List.mem_map_of_mem hmem, rfl, fun _ => rfl⟩
  · have hmem : (⟨0x02, [haltVariant]⟩ : Instruction) ∈ sparseSet.instructions := by
      decide
    have hstep : (compiledSteps [] haltVariant.steps)[0]? = some haltStep := by decide
    exact ⟨_, List.mem_map_of_mem hmem, _, List.mem_map_of_mem (List.mem_singleton_self _),
      haltStep, List.mem_of_getElem? hstep, rfl, hstep, rfl, by decide, rfl, _, htick, rfl, hstep,
      rfl, by decide, tick_of_halted rfl, rfl⟩

/-- On the sparse set an unknown opcode fails in the lookup, and not on a bus. -/
theorem tick_error_not_isProtocol_sparse :
    ∃ cpu e s, cpu.Loaded sparseProgram ∧ tick cpu = .error e s ∧ ¬e.IsProtocol := by
  rcases exists_sparse with ⟨instructionMemory, hnew, hstatus, hsize, -⟩
  let start := initial bareMemory instructionMemory
  let cpu : Cpu := { start with datapath := { start.datapath with ir := 0xFF } }
  have hload : cpu.Loaded sparseProgram := by
    have h := loaded_new hnew
    exact ⟨⟨h.idle.asserted, h.idle.dataBus, h.idle.addressBus⟩, h.instructionMemory⟩
  have hl : cpu.lookup =
      .error (.romReadOutOfBounds "controller.instruction_memory.rom" 0xFF0000 0x20001) := by
    have hread : instructionMemory.rom.read 0xFF0000 =
        .error (.romReadOutOfBounds "controller.instruction_memory.rom" 0xFF0000 0x20001) := by
      unfold MicrocodeRom.read
      rw [hsize]
      rfl
    unfold lookup encodedStatus
    show InstructionMemory.lookup instructionMemory _ _
      (StatusEncoder.encode instructionMemory.statusBits _) = _
    rw [hstatus]
    show instructionMemory.lookup 0xFF 0 0 = _
    unfold InstructionMemory.lookup
    rw [show encodeKey ⟨0xFF, 0, 0⟩ = 0xFF0000 by decide, hread]
    rfl
  have htick := @tick_of_lookup_error cpu rfl _ hl
  exact ⟨cpu, _, _, hload, htick, tick_error_not_isProtocol compile_sparseSet hload .refl htick⟩

end Cpu

end Irata2.Sim
