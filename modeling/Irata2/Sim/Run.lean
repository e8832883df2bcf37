import Irata2.Sim.Tick
import Mathlib.Logic.Relation

/-!
# Runs of the CPU

Between ticks the host may act on the input devices.  A run goes on after a tick that threw, with
the state the throw left behind, unless a store to the memory failed.
-/

namespace Irata2.Sim

open Hdl Library Microcode Relation

/-! ## Compiled programs -/

section Compiled

variable {c : Compiler} {is ir : InstructionSet} {p : MicrocodeProgram}

theorem runAllValidators_of_optimizedIr (h : c.optimizedIr is = .ok ir) :
    c.runAllValidators ir = .ok () := by
  unfold Compiler.optimizedIr at h
  have h₁ := (seq_eq_ok.mp h).2
  have h₂ := (seq_eq_ok.mp h₁).2
  have h₃ := (seq_eq_ok.mp h₂).2
  have h₄ := (seq_eq_ok.mp h₃).2
  rcases seq_eq_ok.mp h₄ with ⟨hvalid, hir⟩
  cases hir
  exact hvalid

/-- A compiled program is the encoding of an optimised instruction set that is valid. -/
theorem exists_ir_of_compile (h : c.compile is = .ok p) :
    ∃ ir, c.optimizedIr is = .ok ir ∧ c.runAllValidators ir = .ok () ∧ c.encode ir = .ok p := by
  rcases bind_eq_ok.mp h with ⟨ir, hir, henc⟩
  exact ⟨ir, hir, runAllValidators_of_optimizedIr hir, henc⟩

theorem busValid_of_runAllValidators (h : c.runAllValidators ir = .ok ()) {i : Instruction}
    (hi : i ∈ ir.instructions) {v : InstructionVariant} (hv : v ∈ i.variants) {k : Nat}
    {s : Microcode.Step} (hs : v.steps[k]? = some s) : BusValid s := by
  have hbus := (seq_eq_ok.mp h).1
  exact busValidateStep_eq_ok.mp ((forSteps_eq_ok.mp hbus).2 i hi v hv k s hs)

theorem statusValid_of_runAllValidators (h : c.runAllValidators ir = .ok ()) {i : Instruction}
    (hi : i ∈ ir.instructions) : statusValidateInstruction c.statusEncoder i = .ok () := by
  have h₁ := (seq_eq_ok.mp (seq_eq_ok.mp (seq_eq_ok.mp h).2).2).2
  exact forM_eq_ok.mp (seq_eq_ok.mp h₁).1 i hi

end Compiled

namespace Cpu

/-- The CPU runs a program and is between two ticks. -/
structure Loaded (program : MicrocodeProgram) (cpu : Cpu) : Prop where
  idle : cpu.Idle
  instructionMemory :
    InstructionMemory.new cpuControls program = .ok cpu.controller.instructionMemory

theorem loaded_new {program : MicrocodeProgram} {cartridgeRom : List Byte}
    {extraRegions : List Region} {cpu : Cpu}
    (h : Cpu.new program cartridgeRom extraRegions = .ok cpu) : cpu.Loaded program := by
  rcases bind_eq_ok.mp h with ⟨ram, -, h⟩
  rcases bind_eq_ok.mp h with ⟨cartridge, -, h⟩
  rcases bind_eq_ok.mp h with ⟨memory, -, h⟩
  rcases bind_eq_ok.mp h with ⟨instructionMemory, hm, h⟩
  cases h
  rw [Component.controlOrder_eq] at hm
  exact ⟨⟨fun _ _ => rfl, rfl, rfl⟩, hm⟩

def ramRegion : Region := ⟨"ram", 0x0000, 0x2000, .ram fun _ => 0x00, isPowerOfTwo_ram, aligned_ram⟩

def emptyCartridge : Region :=
  ⟨"cartridge", 0x8000, 0x8000, .rom fun _ => 0xFF, isPowerOfTwo_cartridge, aligned_cartridge⟩

/-- The memory of a CPU without cartridge image and devices. -/
def bareMemory : Memory :=
  ⟨[ramRegion, emptyCartridge], disjoint_of_firstOverlap (by rfl)⟩

theorem new_bareMemory : Memory.new [ramRegion, emptyCartridge] = .ok bareMemory := by rfl

/-- A CPU without a cartridge, on a program that its controller accepts. -/
theorem new_eq {program : MicrocodeProgram} {extraRegions : List Region} {memory : Memory}
    {instructionMemory : InstructionMemory}
    (hmem : Memory.new (ramRegion :: emptyCartridge :: extraRegions) = .ok memory)
    (hinstr : InstructionMemory.new cpuControls program = .ok instructionMemory) :
    Cpu.new program [] extraRegions = .ok (initial memory instructionMemory) := by
  have hram : newRamRegion = .ok ramRegion := by rfl
  have hcartridge : newCartridgeRegion [] = .ok emptyCartridge := by rfl
  unfold Cpu.new
  rw [hram, hcartridge, Component.controlOrder_eq]
  exact bind_eq_ok.mpr ⟨_, rfl, bind_eq_ok.mpr ⟨_, rfl, bind_eq_ok.mpr ⟨memory, hmem,
    bind_eq_ok.mpr ⟨instructionMemory, hinstr, rfl⟩⟩⟩⟩

theorem loaded_setEntry {program : MicrocodeProgram} {cpu : Cpu} (h : cpu.Loaded program)
    (entry : Word) : (cpu.setEntry entry).Loaded program :=
  ⟨⟨h.idle.asserted, h.idle.dataBus, h.idle.addressBus⟩, h.instructionMemory⟩

/-- One event of a run. -/
inductive Step : Cpu → Cpu → Prop
  | tick {s t : Cpu} (h : tick s = .ok () t) : Step s t
  | tickError {s t : Cpu} {e : SimError} (h : tick s = .error e t) (he : ¬e.IsMemoryWrite) :
      Step s t
  | host (s : Cpu) (index : Nat) (i : HostInput) : Step s (s.host index i)

abbrev Run : Cpu → Cpu → Prop := ReflTransGen Step

/-- Successive ticks. -/
def ticks : Nat → SimM Unit
  | 0 => pure ()
  | n + 1 => do
      tick
      ticks n

theorem ticks_succ {cpu t : Cpu} (h : tick cpu = .ok () t) (n : Nat) :
    ticks (n + 1) cpu = ticks n t :=
  StateRun.bind_of_ok h

theorem ticks_add {m : Nat} {cpu t : Cpu} (h : ticks m cpu = .ok () t) (n : Nat) :
    ticks (m + n) cpu = ticks n t := by
  induction m generalizing cpu with
  | zero =>
      cases h
      rw [Nat.zero_add]
  | succ m ih =>
      change (tick >>= fun _ => ticks m) cpu = _ at h
      rw [Nat.add_right_comm]
      cases ht : tick cpu with
      | ok u s =>
          rw [StateRun.bind_of_ok ht] at h
          rw [ticks_succ ht, ih h]
      | error e s =>
          rw [StateRun.bind_of_error ht] at h
          cases h

/-- One instruction: the ticks until the step counter is back at zero. -/
def Executes (cpu cpu' : Cpu) : Prop :=
  ∃ n, ticks (n + 1) cpu = .ok () cpu' ∧ cpu'.controller.sc = 0 ∧
    ∀ m < n, ∃ s, ticks (m + 1) cpu = .ok () s ∧ s.controller.sc ≠ 0

theorem loaded_host {program : MicrocodeProgram} {cpu : Cpu} (h : cpu.Loaded program)
    (index : Nat) (i : HostInput) : (cpu.host index i).Loaded program :=
  ⟨⟨h.idle.asserted, h.idle.dataBus, h.idle.addressBus⟩, h.instructionMemory⟩

section Compiled

variable {c : Compiler} {is : InstructionSet} {p : MicrocodeProgram} {cpu : Cpu}

theorem assertedBy_of_bus {controls : List Control} {d : Control} {bus : BusType}
    (h : d.bus = some bus) : cpu.assertedBy controls d = true ↔ d ∈ controls := by
  have hne : d ≠ .irqLine := by
    rintro rfl
    cases h
  unfold assertedBy
  rw [if_neg hne, decide_eq_true_eq]

theorem assertedBy_decode (cpu : Cpu) (controls : List Control) :
    cpu.assertedBy (InstructionMemory.decode (encodeControls controls)) =
      cpu.assertedBy controls := by
  have hmem := fun e => @InstructionMemory.mem_decode_encodeControls controls e
  funext e
  unfold assertedBy irqLevel
  rw [decide_eq_decide.mpr (hmem e), decide_eq_decide.mpr (hmem .irqLine)]

/-- Whatever a compiled ROM returns keeps to the bus protocol. -/
theorem respectsBuses_of_lookup (hc : c.compile is = .ok p) (hload : cpu.Loaded p)
    {controls : List Control} (hl : cpu.lookup = .ok controls) :
    Component.RespectsBuses (cpu.assertedBy controls) := by
  rcases exists_ir_of_compile hc with ⟨ir, -, hvalid, henc⟩
  rcases InstructionMemory.lookup_eq_ok henc hload.instructionMemory hl with
    rfl | ⟨i, v, k, s, he, -, -, rfl⟩
  · -- an address without an entry holds the zero word, which asserts nothing
    have hnil : BusValid ⟨0, []⟩ := fun bus => ⟨Nat.zero_le 1, fun h => absurd rfl h⟩
    exact Component.respectsBuses_of_busValid hnil fun d bus hd => assertedBy_of_bus hd
  · have hs := busValid_of_runAllValidators hvalid he.instruction he.variant he.step
    refine Component.respectsBuses_of_busValid hs fun d bus hd => ?_
    rw [assertedBy_of_bus hd, InstructionMemory.mem_decode_encodeControls]

/-- What one tick can do. -/
theorem tick_cases (hc : c.compile is = .ok p) (hload : cpu.Loaded p) :
    (cpu.halted = true ∧ tick cpu = .ok () cpu) ∨
    (∃ e, cpu.halted = false ∧ cpu.lookup = .error e ∧
      tick cpu = .error e { cpu with currentPhase := .control }) ∨
    (∃ controls d, cpu.halted = false ∧ cpu.lookup = .ok controls ∧
      cpu.datapath.step (cpu.assertedBy controls) = .ok d ∧
      tick cpu = .ok () (cpu.afterTick (cpu.assertedBy controls) d)) ∨
    (∃ e s, e.IsMemoryWrite ∧ tick cpu = .error e s) := by
  by_cases hh : cpu.halted = true
  · exact .inl ⟨hh, tick_of_halted hh⟩
  · rw [Bool.not_eq_true] at hh
    right
    cases hl : cpu.lookup with
    | error e => exact .inl ⟨e, hh, rfl, tick_of_lookup_error hh hl⟩
    | ok controls =>
        right
        have hb := respectsBuses_of_lookup hc hload hl
        cases hd : cpu.datapath.step (cpu.assertedBy controls) with
        | ok d => exact .inl ⟨controls, d, hh, rfl, hd, tick_of_step hload.idle hh hl hb hd⟩
        | error e =>
            exact .inr ⟨e, _, step_error_isMemoryWrite hd, tick_of_step_error hload.idle hh hl hb hd⟩

theorem isLookup_of_lookup {e : SimError} (h : cpu.lookup = .error e) : e.IsLookup := by
  unfold lookup InstructionMemory.lookup at h
  rcases bind_eq_error h with hread | ⟨word, -, h⟩
  · unfold MicrocodeRom.read at hread
    split at hread <;> cases hread
    trivial
  · rcases bind_eq_error h with hover | ⟨u, -, h⟩
    · unfold throwIf at hover
      split at hover <;> cases hover
      trivial
    · rcases mapM_eq_error h with ⟨i, -, hi⟩
      unfold ControlEncoder.getControl at hi
      split at hi <;> cases hi
      trivial

/-- Ticks and host actions keep the program loaded. -/
theorem loaded_step (hc : c.compile is = .ok p) (hload : cpu.Loaded p) {cpu' : Cpu}
    (h : Step cpu cpu') : cpu'.Loaded p := by
  cases h with
  | host index i => exact loaded_host hload index i
  | tick h =>
      rcases tick_cases hc hload with ⟨-, ht⟩ | ⟨e, -, -, ht⟩ | ⟨controls, d, -, -, -, ht⟩ |
        ⟨e, s, -, ht⟩
      · cases h.symm.trans ht
        exact hload
      · cases h.symm.trans ht
      · cases h.symm.trans ht
        exact ⟨idle_afterTick cpu _ d, hload.instructionMemory⟩
      · cases h.symm.trans ht
  | tickError h hne =>
      rcases tick_cases hc hload with ⟨-, ht⟩ | ⟨e, -, -, ht⟩ | ⟨controls, d, -, -, -, ht⟩ |
        ⟨e, s, he, ht⟩
      · cases h.symm.trans ht
      · cases h.symm.trans ht
        exact ⟨⟨hload.idle.asserted, hload.idle.dataBus, hload.idle.addressBus⟩,
          hload.instructionMemory⟩
      · cases h.symm.trans ht
      · cases h.symm.trans ht
        exact absurd he hne

theorem loaded_run (hc : c.compile is = .ok p) (hload : cpu.Loaded p) {cpu' : Cpu}
    (h : Run cpu cpu') : cpu'.Loaded p := by
  induction h with
  | refl => exact hload
  | tail _ hstep ih => exact loaded_step hc ih hstep

/-- The bus protocol holds in every run of a compiled program, up to the first store that fails: no
tick writes a bus twice, reads a bus that nobody wrote, or touches a bus or a control outside its
phase. -/
theorem tick_error_not_isProtocol (hc : c.compile is = .ok p) (hload : cpu.Loaded p)
    {cpu' : Cpu} (hrun : Run cpu cpu') {e : SimError} {s : Cpu} (h : tick cpu' = .error e s) :
    ¬e.IsProtocol := by
  rcases tick_cases hc (loaded_run hc hload hrun) with ⟨-, ht⟩ | ⟨e', -, hl, ht⟩ |
    ⟨controls, d, -, -, -, ht⟩ | ⟨e', s', he, ht⟩
  · cases h.symm.trans ht
  · cases h.symm.trans ht
    have he := isLookup_of_lookup hl
    cases e <;> first | exact id | exact absurd he id
  · cases h.symm.trans ht
  · cases h.symm.trans ht
    cases e <;> first | exact id | exact absurd he id

end Compiled

end Cpu

end Irata2.Sim
