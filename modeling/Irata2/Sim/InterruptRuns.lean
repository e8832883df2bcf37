import Irata2.Sim.InstructionTrace
import Irata2.Sim.Interrupts
import Irata2.Sim.Merging
import Irata2.Sim.Traffic

/-!
# Interrupts along a run

A run remembers the instruction that it is in: the state before the tick that started it and the
state before the tick that fetched its opcode.  The interrupt latch and the opcode that the
microcode runs under are read off from these two, and the level of the interrupt line from the
devices, in the order of their regions.
-/

namespace Irata2.Sim

open Hdl Isa Library Library.StateRun Microcode

/-! ## Memories with devices -/

namespace Module

variable {size : Nat} {m m' : Module size} {address : Word} {v : Byte}

theorem drives_read {path : String} (h : m.read path address = .ok (v, m'))
    (hm : m.irqLevel ≠ none) : m'.irqLevel ≠ none := by
  cases m with
  | inputDevice d =>
      cases h
      exact Option.some_ne_none _
  | ram cells => exact absurd rfl hm
  | rom storage => exact absurd rfl hm
  | vectorGraphicsCoprocessor d => exact absurd rfl hm

theorem drives_write (h : m.write address v = .ok m') (hm : m.irqLevel ≠ none) :
    m'.irqLevel ≠ none := by
  cases m with
  | inputDevice d =>
      cases h
      exact Option.some_ne_none _
  | ram cells => exact absurd rfl hm
  | rom storage => exact absurd rfl hm
  | vectorGraphicsCoprocessor d => exact absurd rfl hm

theorem drives_host (i : HostInput) (hm : m.irqLevel ≠ none) : (m.host i).irqLevel ≠ none := by
  cases m with
  | inputDevice d => exact Option.some_ne_none _
  | ram cells => exact absurd rfl hm
  | rom storage => exact absurd rfl hm
  | vectorGraphicsCoprocessor d => exact absurd rfl hm

end Module

namespace Memory

/-- A device of the memory drives the interrupt line. -/
def DrivesLine (m : Memory) : Prop := m.irqLevels ≠ []

/-- A device of the memory asks for an interrupt. -/
def DevicePending (m : Memory) : Prop := ∃ r ∈ m.regions, r.module.irqLevel = some true

/-- The device that drives the line last asks for an interrupt. -/
def LastDevicePending (m : Memory) : Prop := m.irqLevels.getLast? = some true

theorem devicePending_iff {m : Memory} : m.DevicePending ↔ true ∈ m.irqLevels :=
  List.mem_filterMap.symm

theorem drivesLine_of_forall₂ {m m' : Memory}
    (h : List.Forall₂ (fun r r' : Region => r.module.irqLevel ≠ none → r'.module.irqLevel ≠ none)
      m.regions m'.regions) (hm : m.DrivesLine) : m'.DrivesLine := by
  unfold DrivesLine at hm ⊢
  rw [Ne, irqLevels_eq_nil] at hm ⊢
  intro hnone
  apply hm
  generalize m.regions = rs at h
  generalize m'.regions = rs' at h hnone
  induction h with
  | nil => exact fun r hr => (by cases hr)
  | cons hr _ ih =>
      intro r hmem
      rcases List.mem_cons.mp hmem with rfl | hmem
      · by_contra hdrives
        exact hr hdrives (hnone _ List.mem_cons_self)
      · exact ih (fun r' hr' => hnone r' (List.mem_cons_of_mem _ hr')) r hmem

theorem drivesLine_afterRead {m : Memory} (address : Word) (hm : m.DrivesLine) :
    (m.afterRead address).DrivesLine := by
  refine drivesLine_of_forall₂ ?_ hm
  refine forall₂_readRegions (fun _ => id) (fun r r' v hr => ?_) (m.readRegions_eq address)
  rcases Region.read_eq hr with ⟨module, hmodule, rfl⟩
  exact Module.drives_read hmodule

theorem drivesLine_writeAt {m m' : Memory} {address : Word} {v : Byte}
    (h : m.writeAt address v = .ok m') (hm : m.DrivesLine) : m'.DrivesLine := by
  refine drivesLine_of_forall₂ ?_ hm
  refine forall₂_writeRegions (fun _ => id) (fun r r' hr => ?_) (writeAt_eq_ok.mp h)
  rcases Region.write_eq hr with ⟨module, hmodule, rfl⟩
  exact Module.drives_write hmodule

theorem drivesLine_host {m : Memory} (index : Nat) (i : HostInput) (hm : m.DrivesLine) :
    (m.host index i).DrivesLine :=
  drivesLine_of_forall₂ (forall₂_modify (fun _ => id) (fun r => r.module.drives_host i) _ index) hm

end Memory

/-! ## Runs -/

/-- A run of a CPU under the default microcode, with the instructions that it has started.  A tick
that throws starts and fetches nothing. -/
inductive InstructionRun : History → Cpu → Prop
  | new {cartridgeRom : List Byte} {extraRegions : List Region} {cpu : Cpu}
      (h : Cpu.new Irata.program cartridgeRom extraRegions = .ok cpu) :
      InstructionRun ⟨[], none⟩ cpu
  | setEntry {cartridgeRom : List Byte} {extraRegions : List Region} {cpu : Cpu}
      (h : Cpu.new Irata.program cartridgeRom extraRegions = .ok cpu) (entry : Word) :
      InstructionRun ⟨[], none⟩ (cpu.setEntry entry)
  | tick {h : History} {cpu cpu' : Cpu} (hrun : InstructionRun h cpu)
      (htick : Cpu.tick cpu = .ok () cpu') : InstructionRun (h.observe cpu) cpu'
  | tickError {h : History} {cpu cpu' : Cpu} {e : SimError} (hrun : InstructionRun h cpu)
      (htick : Cpu.tick cpu = .error e cpu') (he : ¬e.IsMemoryWrite) : InstructionRun h cpu'
  | host {h : History} {cpu : Cpu} (hrun : InstructionRun h cpu) (index : Nat) (i : HostInput) :
      InstructionRun h (cpu.host index i)

namespace Cpu

variable {cpu cpu' : Cpu}

theorem eq_initial_of_new {program : MicrocodeProgram} {cartridgeRom : List Byte}
    {extraRegions : List Region} (h : Cpu.new program cartridgeRom extraRegions = .ok cpu) :
    ∃ memory m, cpu = initial memory m := by
  rcases bind_eq_ok.mp h with ⟨ram, -, h⟩
  rcases bind_eq_ok.mp h with ⟨cartridge, -, h⟩
  rcases bind_eq_ok.mp h with ⟨memory, -, h⟩
  rcases bind_eq_ok.mp h with ⟨m, -, h⟩
  cases h
  exact ⟨memory, m, rfl⟩

/-- A tick that throws without a failed store changes nothing but the phase. -/
theorem eq_of_tick_error (hload : cpu.Loaded Irata.program) {e : SimError}
    (htick : tick cpu = .error e cpu') (he : ¬e.IsMemoryWrite) :
    cpu' = { cpu with currentPhase := .control } := by
  rcases tick_cases Irata.compile_instructionSet hload with ⟨-, ht⟩ | ⟨e', -, -, ht⟩ |
    ⟨controls, d, -, -, -, ht⟩ | ⟨e', s, hwrite, ht⟩
  · cases htick.symm.trans ht
  · cases htick.symm.trans ht
    rfl
  · cases htick.symm.trans ht
  · cases htick.symm.trans ht
    exact absurd hwrite he

/-- The microcode leaves the interrupt line alone. -/
theorem irqLine_not_mem (hload : cpu.Loaded Irata.program) {controls : List Control}
    (hl : cpu.lookup = .ok controls) (hidle : cpu.datapath.memory.irqLevels = []) :
    cpu.irqLevel controls = cpu.asserted .irqLine := by
  have hline : ∀ l, Control.irqLine ∉ l → cpu.irqLevel l = cpu.asserted .irqLine := by
    intro l hl
    unfold irqLevel
    rw [hidle, decide_eq_false hl]
    rfl
  rcases lookup_cases hload hl with rfl | ⟨l, last, hcs, hplace⟩
  · exact hline [] List.not_mem_nil
  · have hlevel : cpu.irqLevel controls =
        cpu.irqLevel (l ++ [if last then Control.scReset else .scIncrement]) :=
      congrFun hcs Control.irqLine
    rw [hlevel]
    apply hline
    intro hmem
    rcases List.mem_append.mp hmem with hmem | hmem
    · rcases hplace with ⟨hfetch, -⟩ | ⟨-, hkeeps⟩
      · have hall : ∀ l ∈ fetchSteps, Control.irqLine ∉ l := by decide
        exact hall l (List.mem_of_getElem? hfetch) hmem
      · cases List.all_eq_true.mp hkeeps _ hmem
    · cases last <;> cases List.mem_singleton.mp hmem

/-- Without a device the interrupt line stays low. -/
def LineIdle (cpu : Cpu) : Prop := ¬cpu.datapath.memory.DrivesLine → cpu.asserted .irqLine = false

theorem lineIdle_tick (hload : cpu.Loaded Irata.program) (hidle : cpu.LineIdle)
    (htick : tick cpu = .ok () cpu') : cpu'.LineIdle := by
  rcases tick_cases Irata.compile_instructionSet hload with ⟨-, ht⟩ | ⟨e, -, -, ht⟩ |
    ⟨controls, d, -, hl, hd, ht⟩ | ⟨e, s, -, ht⟩
  · cases htick.symm.trans ht
    exact hidle
  · cases htick.symm.trans ht
  · cases htick.symm.trans ht
    intro hnone
    -- a device does not go away in a tick
    have hbefore : ¬cpu.datapath.memory.DrivesLine := fun hdrives =>
      hnone (Datapath.step_memory (P := Memory.DrivesLine) (fun _ => Memory.drivesLine_afterRead)
        (fun _ _ _ _ hw => Memory.drivesLine_writeAt hw) hd hdrives)
    show cpu.irqLevel controls = false
    rw [irqLine_not_mem hload hl (not_not.mp hbefore)]
    exact hidle hbefore
  · cases htick.symm.trans ht

/-- An instruction does not start by itself: without a start the step counter stays at zero. -/
theorem sc_of_not_starts (hload : cpu.Loaded Irata.program) (htick : tick cpu = .ok () cpu')
    (hsc : cpu.controller.sc = 0) (hs : cpu.asserts .instructionStart = false) :
    cpu'.controller.sc = 0 := by
  rcases tick_cases Irata.compile_instructionSet hload with ⟨-, ht⟩ | ⟨e, -, -, ht⟩ |
    ⟨controls, d, hh, hl, hd, ht⟩ | ⟨e, s, -, ht⟩
  · cases htick.symm.trans ht
    exact hsc
  · cases htick.symm.trans ht
  · cases htick.symm.trans ht
    rcases lookup_cases hload hl with rfl | ⟨l, last, hcs, hplace⟩
    · exact hsc
    · rw [hsc] at hplace
      rcases hplace with ⟨hfetch, -⟩ | ⟨hthree, -⟩
      · -- the step at zero asserts the start
        cases hfetch
        have hasserted := congrFun hcs Control.instructionStart
        rw [assertedBy_microstep (by decide) (by decide)] at hasserted
        have hmem : cpu.asserts .instructionStart = true :=
          (asserts_of_lookup hh hl _).trans hasserted
        rw [hs] at hmem
        cases hmem
      · exact absurd hthree (by decide)
  · cases htick.symm.trans ht

end Cpu

/-- What a run knows about its latest instruction. -/
structure Owned (h : History) (cpu : Cpu) : Prop where
  loaded : cpu.Loaded Irata.program
  lineIdle : cpu.LineIdle
  idle : h.latest = none → cpu.controller.sc = 0
  awaiting : ∀ s, h.latest = some s → s.atFetch = none →
    cpu.controller.sc = 1 ∧ cpu.controller.injectInterrupt = s.atStart.takesInterrupt
  underway : ∀ s, h.latest = some s → ∀ c, s.atFetch = some c → cpu.controller.sc ≠ 1 ∧
    cpu.controller.injectInterrupt = s.atStart.takesInterrupt ∧
      cpu.datapath.ir = c.datapath.memory.byteAt c.datapath.mar

namespace Owned

variable {h : History} {cpu cpu' : Cpu}

theorem begin (hload : cpu.Loaded Irata.program) (hline : cpu.asserted .irqLine = false)
    (hsc : cpu.controller.sc = 0) : Owned ⟨[], none⟩ cpu where
  loaded := hload
  lineIdle := fun _ => hline
  idle := fun _ => hsc
  awaiting := fun _ hs => (by cases hs)
  underway := fun _ hs => (by cases hs)

theorem tick (ho : Owned h cpu) (htick : Cpu.tick cpu = .ok () cpu') :
    Owned (h.observe cpu) cpu' := by
  obtain ⟨hload', hkind⟩ := Cpu.kind_of_tick ho.loaded htick
  have hline := Cpu.lineIdle_tick ho.loaded ho.lineIdle htick
  cases hkind with
  | starts hs hstep =>
      have hobserve : h.observe cpu = ⟨h.starts, some ⟨cpu, none⟩⟩ := if_pos hs
      rw [hobserve]
      refine ⟨hload', hline, fun hnone => (by cases hnone), ?_, ?_⟩
      · intro s hlatest _
        cases hlatest
        exact ⟨hstep.sc, hstep.injectInterrupt⟩
      · intro s hlatest c hfetch
        cases hlatest
        cases hfetch
  | fetches hs hf hstep =>
      have hobserve : h.observe cpu =
          ⟨h.past, h.latest.map fun s => { s with atFetch := some cpu }⟩ := by
        unfold History.observe
        rw [hs, hf]
        rfl
      rw [hobserve]
      cases hlatest : h.latest with
      | none =>
          -- a fetch comes after a start
          have hzero := ho.idle hlatest
          rw [hstep.scBefore] at hzero
          cases hzero
      | some s =>
          have hinject : cpu.controller.injectInterrupt = s.atStart.takesInterrupt := by
            cases hfetch : s.atFetch with
            | none => exact (ho.awaiting s hlatest hfetch).2
            | some c => exact (ho.underway s hlatest c hfetch).2.1
          refine ⟨hload', hline, fun hnone => (by cases hnone), ?_, ?_⟩
          · intro t htl hnone
            cases htl
            cases hnone
          · intro t htl c hfetch
            cases htl
            cases hfetch
            refine ⟨?_, hstep.injectInterrupt.trans hinject, hstep.ir⟩
            rw [hstep.sc]
            decide
  | passes hs hf hstep =>
      have hobserve : h.observe cpu = h := by
        unfold History.observe
        rw [hs, hf]
        rfl
      rw [hobserve]
      refine ⟨hload', hline, ?_, ?_, ?_⟩
      · intro hnone
        exact Cpu.sc_of_not_starts ho.loaded htick (ho.idle hnone) hs
      · intro s hlatest hnone
        obtain ⟨hsc, hinject⟩ := ho.awaiting s hlatest hnone
        refine ⟨?_, hstep.injectInterrupt.trans hinject⟩
        rcases hstep.sc with heq | ⟨hne, -⟩
        · exact heq.trans hsc
        · exact absurd hsc hne
      · intro s hlatest c hfetch
        obtain ⟨hsc, hinject, hir⟩ := ho.underway s hlatest c hfetch
        refine ⟨?_, hstep.injectInterrupt.trans hinject, hstep.ir.trans hir⟩
        rcases hstep.sc with heq | ⟨-, hne⟩
        · rw [heq]
          exact hsc
        · exact hne

theorem of_run (hrun : InstructionRun h cpu) : Owned h cpu := by
  induction hrun with
  | new hnew =>
      have hload := Cpu.loaded_new hnew
      obtain ⟨memory, m, rfl⟩ := Cpu.eq_initial_of_new hnew
      exact .begin hload rfl rfl
  | setEntry hnew entry =>
      have hload := Cpu.loaded_setEntry (Cpu.loaded_new hnew) entry
      obtain ⟨memory, m, rfl⟩ := Cpu.eq_initial_of_new hnew
      exact .begin hload rfl rfl
  | tick _ htick ih => exact ih.tick htick
  | tickError _ htick he ih =>
      cases Cpu.eq_of_tick_error ih.loaded htick he
      exact ⟨⟨⟨ih.loaded.idle.asserted, ih.loaded.idle.dataBus, ih.loaded.idle.addressBus⟩,
        ih.loaded.instructionMemory⟩, ih.lineIdle, ih.idle, ih.awaiting, ih.underway⟩
  | host _ index i ih =>
      refine ⟨Cpu.loaded_host ih.loaded index i, ?_, ih.idle, ih.awaiting, ih.underway⟩
      intro hnone
      exact ih.lineIdle fun hdrives => hnone (Memory.drivesLine_host index i hdrives)

end Owned

/-! ## The entry sequence -/

/-- The instruction under which an interrupt is entered. -/
def irqImplied : InstructionInfo := ⟨.irq, 0x00, .imp, []⟩

theorem irqImplied_mem : irqImplied ∈ Isa.instructions := by
  decide

namespace Cpu

/-- The next tick executes a step of the entry sequence, after the fetch. -/
def RunsIrqBody (cpu : Cpu) : Prop :=
  cpu.halted = false ∧ cpu.irValue = irqImplied.opcode ∧
    ∃ k l, (bodyOn irqImplied cpu.datapath.status)[k]? = some l ∧
      cpu.controller.sc.toNat = 3 + k

end Cpu

/-- The entry sequence belongs to an instruction that took an interrupt when it started, or that
fetched the opcode of the sequence. -/
theorem irq_body_entered {h : History} {cpu : Cpu} (hrun : InstructionRun h cpu)
    (hbody : cpu.RunsIrqBody) :
    ∃ s, h.latest = some s ∧ (s.atStart.takesInterrupt = true ∨
      ∃ c, s.atFetch = some c ∧ c.datapath.memory.byteAt c.datapath.mar = kIrqOpcode) := by
  have ho := Owned.of_run hrun
  obtain ⟨-, hir, k, l, -, hsc⟩ := hbody
  cases hlatest : h.latest with
  | none =>
      -- nothing has started, so the step counter is still zero
      rw [ho.idle hlatest] at hsc
      have hzero : (0 : Byte).toNat = 0 := rfl
      omega
  | some s =>
      refine ⟨s, rfl, ?_⟩
      cases hfetch : s.atFetch with
      | none =>
          rw [(ho.awaiting s hlatest hfetch).1] at hsc
          have hone : (1 : Byte).toNat = 1 := rfl
          omega
      | some c =>
          obtain ⟨-, hinject, hbyte⟩ := ho.underway s hlatest c hfetch
          by_cases htakes : s.atStart.takesInterrupt = true
          · exact .inl htakes
          · right
            refine ⟨c, rfl, ?_⟩
            rw [Bool.not_eq_true] at htakes
            -- the latch is clear, so the opcode is the byte that was fetched
            unfold Cpu.irValue at hir
            rw [hinject, htakes] at hir
            exact hbyte.symm.trans hir

/-- A new CPU over a RAM of zeros runs the entry sequence without an interrupt. -/
theorem exists_runsIrqBody : ∃ h cpu, InstructionRun h cpu ∧ cpu.RunsIrqBody ∧
    ∀ s, h.latest = some s → s.atStart.takesInterrupt = false := by
  rcases Cpu.exists_instructionMemory with ⟨m, hm⟩
  have hnew := Cpu.new_eq Cpu.new_bareMemory hm
  have hb : (Cpu.initial Cpu.bareMemory m).AtBoundary :=
    ⟨Cpu.loaded_new hnew, rfl, rfl, Cpu.exists_nop, Memory.lowRam_of_head⟩
  have hirq : (Cpu.initial Cpu.bareMemory m).takesInterrupt = false := rfl
  have hnext : (Cpu.initial Cpu.bareMemory m).nextOpcode = irqImplied.opcode := by
    rw [Cpu.nextOpcode_of_not_taken hirq]
    show Cpu.bareMemory.byteAt 0 = 0x00
    decide
  rcases Cpu.exists_fetched hb ⟨irqImplied, irqImplied_mem, hnext⟩ with
    ⟨cpu₁, cpu₂, cpu₃, htick₁, -, htick₂, -, htick₃, hfetched, -⟩
  have hrun := (((InstructionRun.new hnew).tick htick₁).tick htick₂).tick htick₃
  have hinject : cpu₃.controller.injectInterrupt = false := hfetched.injectInterrupt.trans hirq
  refine ⟨_, cpu₃, hrun, ⟨hfetched.halted, ?_, 0, _, rfl, ?_⟩, ?_⟩
  · unfold Cpu.irValue
    rw [hinject, hfetched.datapath]
    exact hnext
  · rw [hfetched.sc]
    rfl
  · intro s hlatest
    have ho := Owned.of_run hrun
    cases hfetch : s.atFetch with
    | none => exact (ho.awaiting s hlatest hfetch).2.symm.trans hinject
    | some c => exact (ho.underway s hlatest c hfetch).2.1.symm.trans hinject

theorem irq_body_entered_bare : ∃ h cpu, InstructionRun h cpu ∧ cpu.RunsIrqBody ∧
    ∃ s, h.latest = some s ∧ (s.atStart.takesInterrupt = true ∨
      ∃ c, s.atFetch = some c ∧ c.datapath.memory.byteAt c.datapath.mar = kIrqOpcode) := by
  rcases exists_runsIrqBody with ⟨h, cpu, hrun, hbody, -⟩
  exact ⟨h, cpu, hrun, hbody, irq_body_entered hrun hbody⟩

/-- The opcode of the sequence is the value that RAM is filled with. -/
theorem not_irq_body_interrupted : ¬∀ h cpu, InstructionRun h cpu → cpu.RunsIrqBody →
    ∃ s, h.latest = some s ∧ s.atStart.takesInterrupt = true := by
  intro hall
  rcases exists_runsIrqBody with ⟨h, cpu, hrun, hbody, hnone⟩
  obtain ⟨s, hlatest, htakes⟩ := hall h cpu hrun hbody
  rw [hnone s hlatest] at htakes
  cases htakes

/-! ## Boundaries of a run -/

/-- What the body of an instruction under the opcode of the entry sequence does with the
interrupt-disable bit: the first step sets it, and no later one changes it. -/
theorem irq_sets_disable {i : Instruction} (hi : i ∈ Irata.instructionSet.instructions)
    (hop : i.opcode = kIrqOpcode) {v : InstructionVariant} (hv : v ∈ i.variants) {k : Nat}
    {l : List Control} (hk : 3 ≤ k)
    (hl : (microSteps Irata.instructionSet.fetchPreamble v.steps)[k]? = some l) :
    (k = 3 ∧ l = [StatusBit.interruptDisable.set]) ∨
      (4 ≤ k ∧ l.any (Datapath.changesBit .interruptDisable) = false) := by
  have hall : ∀ i ∈ Irata.instructionSet.instructions, i.opcode = kIrqOpcode →
      ∀ v ∈ i.variants,
        (microSteps Irata.instructionSet.fetchPreamble v.steps)[3]? =
          some [StatusBit.interruptDisable.set] ∧
        ∀ l ∈ (microSteps Irata.instructionSet.fetchPreamble v.steps).drop 4,
          l.any (Datapath.changesBit .interruptDisable) = false := by
    decide +kernel
  obtain ⟨hfirst, hrest⟩ := hall i hi hop v hv
  by_cases hthree : k = 3
  · left
    rw [hthree] at hl
    exact ⟨hthree, Option.some.inj (hl.symm.trans hfirst)⟩
  · right
    refine ⟨by omega, hrest l ?_⟩
    have hdrop : ((microSteps Irata.instructionSet.fetchPreamble v.steps).drop 4)[k - 4]? =
        some l := by
      rw [List.getElem?_drop, ← hl]
      congr 1
      omega
    exact List.mem_of_getElem? hdrop

namespace Cpu

/-- The opcode in effect has microcode. -/
def HasMicrocode (cpu : Cpu) : Prop := ∃ i ∈ Isa.instructions, cpu.irValue = i.opcode

/-- Interrupts are disabled. -/
def Disabled (cpu : Cpu) : Prop := Status.value .interruptDisable cpu.datapath.status = true

/-- While the latch is set, interrupts are disabled from the second step of the entry on; and an
instruction ends under an opcode that has microcode. -/
structure Steady (cpu : Cpu) : Prop where
  masked : cpu.controller.injectInterrupt = true →
    (cpu.controller.sc = 0 ∨ 4 ≤ cpu.controller.sc.toNat) → cpu.Disabled
  microcode : cpu.controller.sc = 0 → cpu.HasMicrocode

theorem steady_tick {cpu cpu' : Cpu} (hload : cpu.Loaded Irata.program) (hs : cpu.Steady)
    (htick : tick cpu = .ok () cpu') : cpu'.Steady := by
  rcases tick_cases Irata.compile_instructionSet hload with ⟨-, ht⟩ | ⟨e, -, -, ht⟩ |
    ⟨controls, d, hh, hl, hd, ht⟩ | ⟨e, s, -, ht⟩
  · cases htick.symm.trans ht
    exact hs
  · cases htick.symm.trans ht
  · cases htick.symm.trans ht
    rcases microStep_of_lookup hload hl with rfl | ⟨i, hi, v, hv, l, last, hop, hl, hlast, hcs⟩
    · -- a missing entry leaves everything as it is
      rw [step_assertedBy, Microstep.step_nil] at hd
      cases hd
      exact ⟨hs.masked, hs.microcode⟩
    · have hstep : cpu.datapath.step (Datapath.on l) = .ok d :=
        (Datapath.step_congr (fun _ he => (on_of_sequenced hcs he).symm) _).trans hd
      have hafter : cpu.afterTick (cpu.assertedBy controls) d = cpu.afterMicrostep l last d := by
        unfold afterMicrostep
        rw [hcs]
      -- a microcode entry: a step of the fetch, or one of the body
      have hlength := three_lt_length hi hv
      rw [hafter]
      rcases microSteps_cases hi hv hl with ⟨hk, hfetch⟩ | ⟨hk, hkeeps⟩
      · -- the fetch leads to the first step of the body at most
        have hsource : ∀ l ∈ fetchSteps, ∀ e ∈ l, e.owner ≠ .sc := by decide
        have hnot : last = false := hlast.trans (decide_eq_false (by omega))
        have hsc := @sc_afterMicrostep cpu l last d (hsource l (List.mem_of_getElem? hfetch))
        rw [hnot] at hsc
        have hnat : (cpu.controller.sc + 1).toNat = cpu.controller.sc.toNat + 1 := by
          rw [BitVec.toNat_add]
          have hone : (1 : Byte).toNat = 1 := rfl
          rw [hone]
          exact Nat.mod_eq_of_lt (by omega)
        have hne : cpu.controller.sc + 1 ≠ 0 := by
          intro hzero
          have hzero' : (cpu.controller.sc + 1).toNat = 0 := congrArg BitVec.toNat hzero
          omega
        have hlt : ¬4 ≤ (cpu.controller.sc + 1).toNat := by omega
        rw [hnot]
        constructor
        · intro _ hplace
          rw [hsc] at hplace
          exact absurd hplace (not_or.mpr ⟨hne, hlt⟩)
        · intro hzero
          rw [hsc] at hzero
          exact absurd hzero hne
      · -- the body keeps the instruction, and the first step of the interrupt's own sets the flag
        have hpasses := @passes_afterMicrostep cpu l last d hkeeps hstep (by omega)
        have hvalue : (cpu.afterMicrostep l last d).irValue = cpu.irValue := by
          unfold irValue
          rw [hpasses.injectInterrupt, hpasses.ir]
        constructor
        · intro hinject _
          have hbefore := hpasses.injectInterrupt.symm.trans hinject
          have hopcode : i.opcode = kIrqOpcode := by
            rw [← hop]
            unfold irValue
            rw [if_pos hbefore]
          rcases irq_sets_disable hi hopcode hv hk hl with ⟨-, rfl⟩ | ⟨hfour, hkeep⟩
          · cases (Microstep.step_set _ StatusBit.interruptDisable).symm.trans hstep
            exact (Status.value_assign _ _ _ _).trans (if_pos rfl)
          · exact (Datapath.step_value hkeep hstep).trans (hs.masked hbefore (.inr hfour))
        · intro _
          rcases Irata.exists_of_mem_instructionSet hi with ⟨j, hj, rfl⟩
          exact ⟨j, hj, hvalue.trans hop⟩
  · cases htick.symm.trans ht

/-- A CPU before its first tick: a new one, perhaps with an entry address whose opcode has
microcode. -/
inductive Begins : Cpu → Prop
  | new {cartridgeRom : List Byte} {extraRegions : List Region} {cpu : Cpu}
      (h : Cpu.new Irata.program cartridgeRom extraRegions = .ok cpu) : Begins cpu
  | setEntry {cartridgeRom : List Byte} {extraRegions : List Region} {cpu : Cpu}
      (h : Cpu.new Irata.program cartridgeRom extraRegions = .ok cpu) (entry : Word)
      (hop : (cpu.setEntry entry).HasMicrocode) : Begins (cpu.setEntry entry)

namespace Begins

variable {start cpu : Cpu}

theorem loaded (h : Begins start) : start.Loaded Irata.program := by
  cases h with
  | new h => exact loaded_new h
  | setEntry h entry => exact loaded_setEntry (loaded_new h) entry

theorem lowRam (h : Begins start) : start.datapath.memory.LowRam := by
  cases h with
  | new h => exact lowRam_new h
  | setEntry h entry => exact Memory.lowRam_afterRead (lowRam_new h) _

theorem steady (h : Begins start) : start.Steady := by
  cases h with
  | new h =>
      obtain ⟨memory, m, rfl⟩ := eq_initial_of_new h
      exact ⟨fun hinject => (by cases hinject), fun _ => exists_nop⟩
  | setEntry h entry hop =>
      obtain ⟨memory, m, rfl⟩ := eq_initial_of_new h
      exact ⟨fun hinject => (by cases hinject), fun _ => hop⟩

theorem steady_run (h : Begins start) (hrun : Run start cpu) : cpu.Steady := by
  induction hrun with
  | refl => exact h.steady
  | @tail s t hrun hstep ih =>
      have hload := loaded_run Irata.compile_instructionSet h.loaded hrun
      cases hstep with
      | host index i => exact ⟨ih.masked, ih.microcode⟩
      | tick ht => exact steady_tick hload ih ht
      | tickError ht he =>
          cases eq_of_tick_error hload ht he
          exact ⟨ih.masked, ih.microcode⟩

/-- Where an interrupt is taken in a run, the CPU is at an instruction boundary. -/
theorem atBoundary (h : Begins start) (hrun : Run start cpu) (hh : cpu.halted = false)
    (hsc : cpu.controller.sc = 0) (hirq : cpu.takesInterrupt = true) : cpu.AtBoundary := by
  have hsteady := h.steady_run hrun
  have hload := loaded_run Irata.compile_instructionSet h.loaded hrun
  refine ⟨hload, hh, hsc, ?_, lowRam_run Irata.compile_instructionSet h.loaded h.lowRam hrun⟩
  have hclear : cpu.controller.injectInterrupt = false := by
    rw [← Bool.not_eq_true]
    intro hinject
    -- behind an entry interrupts are disabled
    have hdisabled : Status.value .interruptDisable cpu.datapath.status = true :=
      hsteady.masked hinject (.inl hsc)
    unfold takesInterrupt at hirq
    rw [hdisabled, Bool.not_true, Bool.and_false] at hirq
    cases hirq
  have hmicrocode := hsteady.microcode hsc
  unfold HasMicrocode irValue at hmicrocode
  rw [hclear] at hmicrocode
  exact hmicrocode

end Begins

/-! ## The return address -/

/-- The entry has stepped over the byte that it does not execute: it pushes the address behind it,
and RTI goes there. -/
theorem irq_resumes_behind {start cpu : Cpu} (hstart : Begins start) (hrun : Run start cpu)
    (hh : cpu.halted = false) (hsc : cpu.controller.sc = 0) (hirq : cpu.takesInterrupt = true) :
    ¬ResumesPreempted cpu ∧
      ∃ cpu', Enters .irq cpu cpu' ∧ cpu'.returnAddress = cpu.datapath.pc + 1 ∧
        ∀ cpu'', Executing .rti cpu' cpu'' → cpu''.datapath.pc = cpu.datapath.pc + 1 :=
  resumes_behind (hstart.atBoundary hrun hh hsc hirq) hirq

/-- A device that asks for an interrupt. -/
def pendingDevice : InputDevice :=
  (InputDevice.new.injectKey 0x41).write InputReg.control inputIrqEnable

def pendingMemory : Memory :=
  ⟨[ramRegion, emptyCartridge, keyboard pendingDevice], disjoint_of_firstOverlap (by rfl)⟩

theorem exists_pending : ∃ cpu, Cpu.new Irata.program [] [keyboard pendingDevice] = .ok cpu ∧
    cpu.halted = false ∧ cpu.controller.sc = 0 ∧ cpu.takesInterrupt = true ∧
      cpu.datapath.pc = 0 := by
  rcases exists_instructionMemory with ⟨m, hm⟩
  have hmemory : Memory.new (ramRegion :: emptyCartridge :: [keyboard pendingDevice]) =
      .ok pendingMemory := by rfl
  refine ⟨_, new_eq hmemory hm, rfl, rfl, ?_, rfl⟩
  show (true && !Status.value .interruptDisable 0) = true
  decide

theorem irq_resumes_behind_pending :
    ∃ cpu : Cpu, ¬ResumesPreempted cpu ∧
      ∃ cpu', Enters .irq cpu cpu' ∧ cpu'.returnAddress = cpu.datapath.pc + 1 ∧
        ∀ cpu'', Executing .rti cpu' cpu'' → cpu''.datapath.pc = cpu.datapath.pc + 1 := by
  rcases exists_pending with ⟨cpu, hnew, hh, hsc, hirq, -⟩
  exact ⟨cpu, irq_resumes_behind (.new hnew) .refl hh hsc hirq⟩

/-- The instruction at address 0 is lost: the return address is 1. -/
theorem not_resumesPreempted_pending :
    ∃ cpu : Cpu, Cpu.new Irata.program [] [keyboard pendingDevice] = .ok cpu ∧
      cpu.halted = false ∧ cpu.controller.sc = 0 ∧ cpu.takesInterrupt = true ∧
      cpu.datapath.pc = 0 ∧ ¬ResumesPreempted cpu ∧
      ∃ cpu', Enters .irq cpu cpu' ∧ cpu'.returnAddress = 1 := by
  rcases exists_pending with ⟨cpu, hnew, hh, hsc, hirq, hpc⟩
  have hb := (Begins.new hnew).atBoundary .refl hh hsc hirq
  rcases resumes_behind hb hirq with ⟨hnot, cpu', henters, haddress, -⟩
  rw [hpc] at haddress
  exact ⟨cpu, hnew, hh, hsc, hirq, hpc, hnot, cpu', henters, haddress⟩

end Cpu

/-! ## The devices -/

namespace Cpu

/-- The next tick starts an instruction. -/
theorem exists_start {cpu : Cpu} (hb : cpu.AtBoundary) :
    ∃ cpu', tick cpu = .ok () cpu' ∧ cpu.asserts .instructionStart = true := by
  rcases tick_fetch hb.loaded hb.halted (exists_irValue hb.ir) (k := 0) rfl hb.sc
    (Microstep.step_fetchStart cpu.datapath) with ⟨htick, -, -, -, hsc⟩
  refine ⟨_, htick, ?_⟩
  cases (kind_of_tick hb.loaded htick).2 with
  | starts hs => exact hs
  | fetches _ _ hstep =>
      have hone := hstep.scBefore
      rw [hb.sc] at hone
      cases hone
  | passes hs =>
      have hzero := sc_of_not_starts hb.loaded htick hb.sc hs
      rw [hsc] at hzero
      cases hzero

end Cpu

/-- A tick that starts an instruction injects the entry exactly when it should, unless interrupts
are enabled, some device asks for one, and the last device does not. -/
theorem injection_iff {h : History} {cpu cpu' : Cpu} (hrun : InstructionRun h cpu)
    (hs : cpu.asserts .instructionStart = true) (htick : Cpu.tick cpu = .ok () cpu') :
    (cpu'.controller.injectInterrupt = true ↔
      Status.value .interruptDisable cpu.datapath.status = false ∧
        cpu.datapath.memory.DevicePending) ↔
    (Status.value .interruptDisable cpu.datapath.status = true ∨
      ¬cpu.datapath.memory.DevicePending ∨ cpu.datapath.memory.LastDevicePending) := by
  have ho := Owned.of_run hrun
  have hinject : cpu'.controller.injectInterrupt = cpu.takesInterrupt := by
    cases (Cpu.kind_of_tick ho.loaded htick).2 with
    | starts _ hstep => exact hstep.injectInterrupt
    | fetches hnot => rw [hs] at hnot; cases hnot
    | passes hnot => rw [hs] at hnot; cases hnot
  have hlevel : cpu.irqLevel [] = true ↔ cpu.datapath.memory.LastDevicePending := by
    unfold Cpu.irqLevel Memory.LastDevicePending
    cases hlast : cpu.datapath.memory.irqLevels.getLast? with
    | none =>
        have hline := ho.lineIdle (not_not.mpr (List.getLast?_eq_none_iff.mp hlast))
        rw [hline]
        decide
    | some b => simp
  have hpending : cpu.datapath.memory.LastDevicePending → cpu.datapath.memory.DevicePending :=
    fun hlast => Memory.devicePending_iff.mpr (List.mem_of_getLast? hlast)
  rw [hinject]
  unfold Cpu.takesInterrupt
  rw [Bool.and_eq_true, hlevel, Bool.not_eq_true']
  cases Status.value .interruptDisable cpu.datapath.status with
  | true => simp
  | false => simp only [true_and]; tauto

theorem aligned_keypad : (0x4010 : Word).toNat % mmioSize = 0 := by decide

/-- Two keyboards behind one another. -/
def twoDevices (first second : InputDevice) : List Region :=
  [Cpu.keyboard first,
    ⟨"keypad", 0x4010, mmioSize, .inputDevice second, isPowerOfTwo_mmio, aligned_keypad⟩]

def twoDevicesMemory (first second : InputDevice) : Memory :=
  ⟨Cpu.ramRegion :: Cpu.emptyCartridge :: twoDevices first second,
    disjoint_of_firstOverlap (by rfl)⟩

theorem exists_start_twoDevices (first second : InputDevice) : ∃ cpu cpu',
    Cpu.new Irata.program [] (twoDevices first second) = .ok cpu ∧
      cpu.datapath.memory = twoDevicesMemory first second ∧
      cpu.asserts .instructionStart = true ∧ Cpu.tick cpu = .ok () cpu' ∧
      Status.value .interruptDisable cpu.datapath.status = false ∧
      cpu'.controller.injectInterrupt = second.irqPending := by
  rcases Cpu.exists_instructionMemory with ⟨m, hm⟩
  have hmemory : Memory.new (Cpu.ramRegion :: Cpu.emptyCartridge :: twoDevices first second) =
      .ok (twoDevicesMemory first second) := by rfl
  have hnew := Cpu.new_eq hmemory hm
  have hb : (Cpu.initial (twoDevicesMemory first second) m).AtBoundary :=
    ⟨Cpu.loaded_new hnew, rfl, rfl, Cpu.exists_nop, Memory.lowRam_of_head⟩
  rcases Cpu.exists_start hb with ⟨cpu', htick, hs⟩
  have henabled : Status.value .interruptDisable 0 = false := by decide
  refine ⟨_, cpu', hnew, rfl, hs, htick, henabled, ?_⟩
  cases (Cpu.kind_of_tick hb.loaded htick).2 with
  | starts _ hstep =>
      rw [hstep.injectInterrupt]
      -- the last device is the one that is heard
      show (second.irqPending && !Status.value .interruptDisable 0) = second.irqPending
      rw [henabled]
      exact Bool.and_true _
  | fetches hnot => rw [hs] at hnot; cases hnot
  | passes hnot => rw [hs] at hnot; cases hnot

theorem injection_iff_twoDevices : ∃ cpu cpu' : Cpu,
    (cpu'.controller.injectInterrupt = true ↔
      Status.value .interruptDisable cpu.datapath.status = false ∧
        cpu.datapath.memory.DevicePending) ↔
    (Status.value .interruptDisable cpu.datapath.status = true ∨
      ¬cpu.datapath.memory.DevicePending ∨ cpu.datapath.memory.LastDevicePending) := by
  rcases exists_start_twoDevices InputDevice.new Cpu.pendingDevice with
    ⟨cpu, cpu', hnew, -, hs, htick, -, -⟩
  exact ⟨cpu, cpu', injection_iff (.new hnew) hs htick⟩

/-- The second device, which has no key, takes the request of the first one back. -/
theorem not_injection_twoDevices : ∃ cpu cpu' : Cpu,
    Cpu.new Irata.program [] (twoDevices Cpu.pendingDevice InputDevice.new) = .ok cpu ∧
      cpu.asserts .instructionStart = true ∧ Cpu.tick cpu = .ok () cpu' ∧
      ¬(cpu'.controller.injectInterrupt = true ↔
        Status.value .interruptDisable cpu.datapath.status = false ∧
          cpu.datapath.memory.DevicePending) := by
  rcases exists_start_twoDevices Cpu.pendingDevice InputDevice.new with
    ⟨cpu, cpu', hnew, hmemory, hs, htick, henabled, hinject⟩
  refine ⟨cpu, cpu', hnew, hs, htick, ?_⟩
  intro hiff
  have hpending : cpu.datapath.memory.DevicePending := by
    rw [hmemory]
    exact ⟨Cpu.keyboard Cpu.pendingDevice, List.mem_cons_of_mem _ (List.mem_cons_of_mem _
      List.mem_cons_self), rfl⟩
  have htrue := hiff.mpr ⟨henabled, hpending⟩
  rw [hinject] at htrue
  cases htrue

end Irata2.Sim
