import Irata2.Library.Ring
import Irata2.Sim.Instruction

/-!
# The instruction trace

Every tick under the default microcode starts an instruction, fetches an opcode, or does neither.
A run remembers its instruction starts and what was fetched for each, and the trace buffer and the
IPC register are compared with that.
-/

namespace Irata2.Sim

open Hdl Isa Library Library.StateRun Microcode

/-! ## What a tick asserts -/

/-- Steps that neither start an instruction nor touch what selects the microcode. -/
def keepsInstruction (l : List Control) : Bool :=
  l.all fun e => e.owner != .sc && e != .irqLine && e != .instructionStart && e != .ipcLatch &&
    !Datapath.changesIr e

theorem keepsInstruction_source : ∀ i ∈ Irata.instructionSet.instructions, ∀ v ∈ i.variants,
    ∀ s ∈ v.steps, keepsInstruction s.controls = true := by
  decide +kernel

theorem steps_ne_nil : ∀ i ∈ Irata.instructionSet.instructions, ∀ v ∈ i.variants,
    v.steps ≠ [] := by
  decide +kernel

/-- A body follows the fetch. -/
theorem three_lt_length {i : Instruction} (hi : i ∈ Irata.instructionSet.instructions)
    {v : InstructionVariant} (hv : v ∈ i.variants) :
    3 < (microSteps Irata.instructionSet.fetchPreamble v.steps).length := by
  have hbody := List.length_pos_iff.mpr (steps_ne_nil i hi v hv)
  have htotal : (microSteps Irata.instructionSet.fetchPreamble v.steps).length =
      3 + v.steps.length := by
    unfold microSteps
    rw [List.length_map, List.length_append]
    rfl
  omega

/-- What a step of the source contributes at its place, counted from the fetch on. -/
theorem microSteps_cases {i : Instruction} (hi : i ∈ Irata.instructionSet.instructions)
    {v : InstructionVariant} (hv : v ∈ i.variants) {k : Nat} {l : List Control}
    (hl : (microSteps Irata.instructionSet.fetchPreamble v.steps)[k]? = some l) :
    (k < 3 ∧ fetchSteps[k]? = some l) ∨ (3 ≤ k ∧ keepsInstruction l = true) := by
  have hsplit : microSteps Irata.instructionSet.fetchPreamble v.steps =
      fetchSteps ++ v.steps.map (·.controls) := by
    unfold microSteps
    rw [List.map_append]
    rfl
  rw [hsplit] at hl
  by_cases hk : k < 3
  · left
    rw [List.getElem?_append_left hk] at hl
    exact ⟨hk, hl⟩
  · right
    have hlen : fetchSteps.length = 3 := rfl
    rw [List.getElem?_append_right (by omega)] at hl
    obtain ⟨s, hs, rfl⟩ := List.mem_map.mp (List.mem_of_getElem? hl)
    exact ⟨by omega, keepsInstruction_source i hi v hv s hs⟩

/-- A place of the compiled steps is one of the source's, with the control that sequences it. -/
theorem getElem?_of_compiledSteps {preamble steps : List Microcode.Step}
    (hp : ∀ s ∈ preamble, s.IsSource) (hs : ∀ s ∈ steps, s.IsSource) {k : Nat}
    {s : Microcode.Step} (h : (compiledSteps preamble steps)[k]? = some s) :
    ∃ l, (microSteps preamble steps)[k]? = some l ∧
      s.controls = l ++ [sequenceControl .scIncrement .scReset
        (microSteps preamble steps).length k] := by
  have hlength : (compiledSteps preamble steps).length = (microSteps preamble steps).length := by
    unfold compiledSteps sequenceSteps prefixSteps microSteps
    rw [List.length_map, List.length_zipIdx, List.length_map, List.length_append]
    split
    · rename_i hempty
      rw [List.isEmpty_iff.mp hempty, List.length_nil, Nat.zero_add]
    · rw [List.length_append, List.length_map]
  have hk : k < (microSteps preamble steps).length :=
    hlength ▸ (List.getElem?_eq_some_iff.mp h).1
  have hget := List.getElem?_eq_getElem hk
  obtain ⟨s', hs', hcontrols⟩ := getElem?_compiledSteps hp hs k hget
  cases hs'.symm.trans h
  exact ⟨_, hget, hcontrols⟩

namespace Cpu

variable {cpu : Cpu}

theorem assertedBy_congr {l l' : List Control} (h : ∀ e, e ∈ l ↔ e ∈ l') :
    cpu.assertedBy l = cpu.assertedBy l' := by
  funext e
  unfold assertedBy irqLevel
  rw [decide_eq_decide.mpr (h e), decide_eq_decide.mpr (h .irqLine)]

/-- What the Control phase looks up under the default microcode: nothing, or a step of the variant
of an instruction under the opcode in effect, with the control that sequences it. -/
theorem microStep_of_lookup (hload : cpu.Loaded Irata.program) {controls : List Control}
    (hl : cpu.lookup = .ok controls) :
    controls = [] ∨ ∃ i ∈ Irata.instructionSet.instructions, ∃ v ∈ i.variants, ∃ l last,
      cpu.irValue = i.opcode ∧
      (microSteps Irata.instructionSet.fetchPreamble v.steps)[cpu.controller.sc.toNat]? = some l ∧
      last = decide (cpu.controller.sc.toNat + 1 =
        (microSteps Irata.instructionSet.fetchPreamble v.steps).length) ∧
      cpu.assertedBy controls =
        cpu.assertedBy (l ++ [if last then Control.scReset else .scIncrement]) := by
  rcases exists_ir_of_compile Irata.compile_instructionSet with ⟨ir, hir, -, henc⟩
  cases hir.symm.trans (Compiler.optimizedIr_eq Irata.accepts_instructionSet)
  rcases InstructionMemory.lookup_eq_ok henc hload.instructionMemory hl with
    hnil | ⟨i, v, k, s, he, hopcode, hstep, hcontrols⟩
  · exact .inl hnil
  · right
    -- the entry comes from a variant of the source
    rcases List.mem_map.mp he.instruction with ⟨j, hj, rfl⟩
    rcases List.mem_map.mp he.variant with ⟨u, hu, rfl⟩
    obtain ⟨l, hl, hs⟩ := getElem?_of_compiledSteps Irata.accepts_instructionSet.preamble
      (Irata.accepts_instructionSet.steps j hj u hu) he.step
    have hlt := (List.getElem?_eq_some_iff.mp hl).1
    have hlength := length_microSteps Irata.accepts_instructionSet hj hu
    have hsc : cpu.controller.sc.toNat = k := by
      rw [← hstep, BitVec.toNat_ofNat]
      exact Nat.mod_eq_of_lt (by omega)
    have hmem : ∀ e, e ∈ controls ↔ e ∈ l ++ [if decide (k + 1 =
        (microSteps Irata.instructionSet.fetchPreamble u.steps).length) then Control.scReset
          else .scIncrement] := by
      intro e
      rw [hcontrols, InstructionMemory.mem_decode_encodeControls, hs]
      unfold sequenceControl
      simp only [decide_eq_true_eq]
    rw [hsc]
    exact ⟨j, hj, u, hu, l, _, hopcode.symm, hl, rfl, assertedBy_congr hmem⟩

/-- The step that is looked up is one of the fetch or of a body. -/
theorem lookup_cases (hload : cpu.Loaded Irata.program) {controls : List Control}
    (hl : cpu.lookup = .ok controls) :
    controls = [] ∨ ∃ l last,
      cpu.assertedBy controls =
        cpu.assertedBy (l ++ [if last then Control.scReset else .scIncrement]) ∧
      ((fetchSteps[cpu.controller.sc.toNat]? = some l ∧ last = false) ∨
        (3 ≤ cpu.controller.sc.toNat ∧ keepsInstruction l = true)) := by
  rcases microStep_of_lookup hload hl with hnil | ⟨i, hi, v, hv, l, last, -, hstep, hlast, hcs⟩
  · exact .inl hnil
  · right
    refine ⟨l, last, hcs, ?_⟩
    rcases microSteps_cases hi hv hstep with ⟨hk, hfetch⟩ | ⟨hk, hkeeps⟩
    · left
      have hlength := three_lt_length hi hv
      exact ⟨hfetch, hlast.trans (decide_eq_false (by omega))⟩
    · exact .inr ⟨hk, hkeeps⟩

/-- Whether the next tick asserts a control. -/
def asserts (cpu : Cpu) (c : Control) : Bool :=
  !cpu.halted &&
    match cpu.lookup with
    | .ok controls => decide (c ∈ controls)
    | .error _ => false

/-- The entry of an instruction that starts in the next tick.  The opcode is the one that the
instruction register still holds, unless an interrupt takes its place. -/
def startEntry (cpu : Cpu) : DebugTraceEntry where
  cycle := cpu.cycleCount
  instructionAddress := cpu.datapath.pc
  pc := cpu.datapath.pc
  ir := if cpu.takesInterrupt then kIrqOpcode else cpu.datapath.ir
  sc := 1
  a := cpu.datapath.a
  x := cpu.datapath.x
  status := cpu.datapath.status

/-- A tick that starts an instruction. -/
structure Starts (cpu cpu' : Cpu) : Prop where
  scBefore : cpu.controller.sc = 0
  sc : cpu'.controller.sc = 1
  trace : cpu'.trace = cpu.trace.record cpu.startEntry
  ipc : cpu'.controller.ipc = cpu.datapath.pc
  injectInterrupt : cpu'.controller.injectInterrupt = cpu.takesInterrupt
  ir : cpu'.datapath.ir = cpu.datapath.ir

/-- A tick that fetches an opcode. -/
structure Fetches (cpu cpu' : Cpu) : Prop where
  scBefore : cpu.controller.sc = 1
  sc : cpu'.controller.sc = 2
  trace : cpu'.trace = cpu.trace
  ipc : cpu'.controller.ipc = cpu.controller.ipc
  injectInterrupt : cpu'.controller.injectInterrupt = cpu.controller.injectInterrupt
  ir : cpu'.datapath.ir = cpu.datapath.memory.byteAt cpu.datapath.mar

/-- A tick that does neither. -/
structure Passes (cpu cpu' : Cpu) : Prop where
  sc : cpu'.controller.sc = cpu.controller.sc ∨
    cpu.controller.sc ≠ 1 ∧ cpu'.controller.sc ≠ 1
  trace : cpu'.trace = cpu.trace
  ipc : cpu'.controller.ipc = cpu.controller.ipc
  injectInterrupt : cpu'.controller.injectInterrupt = cpu.controller.injectInterrupt
  ir : cpu'.datapath.ir = cpu.datapath.ir

section AfterMicrostep

variable {l : List Control} {last : Bool} {d : Datapath}

theorem ipc_afterMicrostep :
    (cpu.afterMicrostep l last d).controller.ipc =
      if Control.instructionStart ∈ l ∨ Control.ipcLatch ∈ l then d.pc
      else cpu.controller.ipc := by
  show (if (cpu.assertedBy _ .instructionStart || cpu.assertedBy _ .ipcLatch) = true then _
    else _ : Word) = _
  rw [assertedBy_microstep (by decide) (by decide), assertedBy_microstep (by decide) (by decide)]
  simp only [Bool.or_eq_true, decide_eq_true_eq]

theorem trace_afterMicrostep :
    (cpu.afterMicrostep l last d).trace =
      if Control.instructionStart ∈ l then
        cpu.trace.record { (cpu.afterMicrostep l last d).traceEntry with cycle := cpu.cycleCount }
      else cpu.trace := by
  show (if cpu.assertedBy _ .instructionStart = true then _ else _) = _
  rw [assertedBy_microstep (by decide) (by decide)]
  simp only [decide_eq_true_eq]
  rfl

end AfterMicrostep

theorem starts_afterMicrostep (hsc : cpu.controller.sc = 0) :
    Starts cpu (cpu.afterMicrostep
      [WordRegister.pc.write, WordRegister.mar.read, Control.instructionStart] false
      { cpu.datapath with mar := cpu.datapath.pc }) := by
  have hd : ∀ l last d, (cpu.afterMicrostep l last d).datapath = d := fun _ _ _ => rfl
  have hsc' := @sc_afterMicrostep cpu
    [WordRegister.pc.write, WordRegister.mar.read, Control.instructionStart] false
    { cpu.datapath with mar := cpu.datapath.pc } (by decide)
  have hinject := @injectInterrupt_afterMicrostep cpu
    [WordRegister.pc.write, WordRegister.mar.read, Control.instructionStart] false
    { cpu.datapath with mar := cpu.datapath.pc } (by decide)
  have hipc := @ipc_afterMicrostep cpu
    [WordRegister.pc.write, WordRegister.mar.read, Control.instructionStart] false
    { cpu.datapath with mar := cpu.datapath.pc }
  have htrace := @trace_afterMicrostep cpu
    [WordRegister.pc.write, WordRegister.mar.read, Control.instructionStart] false
    { cpu.datapath with mar := cpu.datapath.pc }
  rw [if_neg (by decide), if_pos (by decide)] at hinject
  rw [if_pos (by decide)] at hipc htrace
  rw [hsc] at hsc'
  have hdatapath := hd [WordRegister.pc.write, WordRegister.mar.read, Control.instructionStart] false
    { cpu.datapath with mar := cpu.datapath.pc }
  generalize cpu.afterMicrostep _ _ _ = cpu' at hsc' hinject hipc htrace hdatapath ⊢
  have hentry : { cpu'.traceEntry with cycle := cpu.cycleCount } = cpu.startEntry := by
    unfold traceEntry irValue startEntry
    rw [hsc', hinject, hipc, hdatapath]
    rfl
  rw [hentry] at htrace
  exact ⟨hsc, hsc', htrace, hipc, hinject, by rw [hdatapath]⟩

theorem fetches_afterMicrostep (hsc : cpu.controller.sc = 1) :
    Fetches cpu (cpu.afterMicrostep [Control.memoryWrite, ByteRegister.ir.read] false
      { cpu.datapath with
        ir := cpu.datapath.memory.byteAt cpu.datapath.mar
        memory := cpu.datapath.memory.afterRead cpu.datapath.mar }) := by
  have hsc' := @sc_afterMicrostep cpu [Control.memoryWrite, ByteRegister.ir.read] false
    { cpu.datapath with
      ir := cpu.datapath.memory.byteAt cpu.datapath.mar
      memory := cpu.datapath.memory.afterRead cpu.datapath.mar } (by decide)
  rw [hsc] at hsc'
  refine ⟨hsc, hsc', ?_, ?_, ?_, rfl⟩
  · rw [trace_afterMicrostep, if_neg (by decide)]
  · rw [ipc_afterMicrostep, if_neg (by decide)]
  · rw [injectInterrupt_afterMicrostep (by decide), if_neg (by decide), if_neg (by decide)]

/-- A step that keeps the instruction. -/
theorem passes_afterMicrostep {l : List Control} {last : Bool} {d : Datapath}
    (hl : keepsInstruction l = true) (hd : cpu.datapath.step (Datapath.on l) = .ok d)
    (hsc : 2 ≤ cpu.controller.sc.toNat) : Passes cpu (cpu.afterMicrostep l last d) := by
  have hall : ∀ e ∈ l, e.owner ≠ .sc ∧ e ≠ .irqLine ∧ e ≠ .instructionStart ∧ e ≠ .ipcLatch ∧
      Datapath.changesIr e = false := by
    intro e he
    have h := List.all_eq_true.mp hl e he
    simp only [Bool.and_eq_true, bne_iff_ne, Bool.not_eq_true'] at h
    tauto
  have hnot : ∀ c ∈ [Control.irqLine, .instructionStart, .ipcLatch, ByteRegister.ir.reset],
      c ∉ l := by
    intro c hc hmem
    obtain ⟨-, hirq, hstart, hlatch, hir⟩ := hall c hmem
    simp only [List.mem_cons, List.not_mem_nil, or_false] at hc
    rcases hc with rfl | rfl | rfl | rfl
    · exact hirq rfl
    · exact hstart rfl
    · exact hlatch rfl
    · cases hir
  have hir : l.any Datapath.changesIr = false :=
    List.any_eq_false.mpr fun e he => Bool.eq_false_iff.mp (hall e he).2.2.2.2
  constructor
  · right
    rw [sc_afterMicrostep fun e he => (hall e he).1]
    have hlt := cpu.controller.sc.isLt
    have hone : ∀ b : Byte, b = 1 → b.toNat = 1 := fun b h => h ▸ rfl
    refine ⟨fun h => ?_, fun h => ?_⟩
    · have := hone _ h
      omega
    · have h' := hone _ h
      split at h'
      · cases h'
      · rw [BitVec.toNat_add] at h'
        change (cpu.controller.sc.toNat + 1) % 256 = 1 at h'
        omega
  · rw [trace_afterMicrostep, if_neg (hnot _ (by decide))]
  · rw [ipc_afterMicrostep, if_neg (not_or.mpr ⟨hnot _ (by decide), hnot _ (by decide)⟩)]
  · rw [injectInterrupt_afterMicrostep (hnot _ (by decide)), if_neg (hnot _ (by decide)),
      if_neg (hnot _ (by decide))]
  · exact Datapath.step_ir hir hd

theorem asserts_of_lookup {controls : List Control} (hh : cpu.halted = false)
    (hl : cpu.lookup = .ok controls) (c : Control) : cpu.asserts c = decide (c ∈ controls) := by
  unfold asserts
  rw [hh, hl]
  rfl

/-- What a tick that succeeds does, by the two controls that matter here. -/
inductive Kind (cpu cpu' : Cpu) : Prop
  | starts (hs : cpu.asserts .instructionStart = true) (h : Starts cpu cpu')
  | fetches (hs : cpu.asserts .instructionStart = false)
      (hf : cpu.asserts ByteRegister.ir.read = true) (h : Fetches cpu cpu')
  | passes (hs : cpu.asserts .instructionStart = false)
      (hf : cpu.asserts ByteRegister.ir.read = false) (h : Passes cpu cpu')

theorem kind_of_tick (hload : cpu.Loaded Irata.program) {cpu' : Cpu}
    (htick : tick cpu = .ok () cpu') : cpu'.Loaded Irata.program ∧ Kind cpu cpu' := by
  have hload' := loaded_step Irata.compile_instructionSet hload (.tick htick)
  refine ⟨hload', ?_⟩
  rcases tick_cases Irata.compile_instructionSet hload with ⟨hh, ht⟩ | ⟨e, -, -, ht⟩ |
    ⟨controls, d, hh, hl, hd, ht⟩ | ⟨e, s, -, ht⟩
  · -- a halted CPU asserts nothing
    cases htick.symm.trans ht
    have hnone : ∀ c, cpu.asserts c = false := fun c => by
      unfold asserts
      rw [hh]
      rfl
    exact .passes (hnone _) (hnone _) ⟨.inl rfl, rfl, rfl, rfl, rfl⟩
  · cases htick.symm.trans ht
  · cases htick.symm.trans ht
    have hasserts := asserts_of_lookup hh hl
    rcases lookup_cases hload hl with rfl | ⟨l, last, hcs, hplace⟩
    · -- a missing entry asserts nothing either
      have hb : Component.RespectsBuses (cpu.assertedBy []) :=
        respectsBuses_of_lookup Irata.compile_instructionSet hload hl
      rw [step_assertedBy, Microstep.step_nil] at hd
      cases hd
      exact .passes (hasserts _) (hasserts _) ⟨.inl rfl, rfl, rfl, rfl, rfl⟩
    · have hmem : ∀ c, c.owner ≠ .sc → c ≠ .irqLine → (c ∈ controls ↔ c ∈ l) := by
        intro c hc hirq
        have h := congrFun hcs c
        rw [assertedBy_microstep hc hirq] at h
        unfold assertedBy at h
        rw [if_neg hirq] at h
        exact decide_eq_decide.mp h
      have hstep := (Datapath.step_congr (fun _ he => (on_of_sequenced hcs he).symm) _).trans hd
      have hafter : cpu.afterTick (cpu.assertedBy controls) d = cpu.afterMicrostep l last d := by
        unfold afterMicrostep
        rw [hcs]
      have hstart : cpu.asserts .instructionStart = decide (Control.instructionStart ∈ l) :=
        (hasserts _).trans (decide_eq_decide.mpr (hmem _ (by decide) (by decide)))
      have hfetch : cpu.asserts ByteRegister.ir.read = decide (ByteRegister.ir.read ∈ l) :=
        (hasserts _).trans (decide_eq_decide.mpr (hmem _ (by decide) (by decide)))
      rw [hafter]
      clear htick ht hload' hafter hasserts hmem hcs
      rcases hplace with ⟨hplace, rfl⟩ | ⟨hsc, hkeeps⟩
      · have hlt := (List.getElem?_eq_some_iff.mp hplace).1
        have hsc : cpu.controller.sc = BitVec.ofNat 8 cpu.controller.sc.toNat := by simp
        generalize cpu.controller.sc.toNat = k at hplace hlt hsc
        -- the three steps of the fetch
        match k, hlt with
        | 0, _ =>
            cases hplace
            cases (Microstep.step_fetchStart cpu.datapath).symm.trans hstep
            exact .starts hstart (starts_afterMicrostep hsc)
        | 1, _ =>
            cases hplace
            cases (Microstep.step_fetchOpcode cpu.datapath).symm.trans hstep
            exact .fetches hstart hfetch (fetches_afterMicrostep hsc)
        | 2, _ =>
            cases hplace
            have htwo : 2 ≤ cpu.controller.sc.toNat := by
              rw [hsc]
              decide
            exact .passes hstart hfetch (passes_afterMicrostep (by decide) hstep htwo)
      · have hnot : ∀ c, c = Control.instructionStart ∨ c = ByteRegister.ir.read → c ∉ l := by
          intro c hc hmem
          have h := List.all_eq_true.mp hkeeps c hmem
          rcases hc with rfl | rfl <;> cases h
        exact .passes (hstart.trans (decide_eq_false (hnot _ (.inl rfl))))
          (hfetch.trans (decide_eq_false (hnot _ (.inr rfl))))
          (passes_afterMicrostep hkeeps hstep (by omega))
  · cases htick.symm.trans ht

theorem tick_error_frame (hload : cpu.Loaded Irata.program) {e : SimError} {cpu' : Cpu}
    (htick : tick cpu = .error e cpu') :
    cpu'.trace = cpu.trace ∧ cpu'.controller.ipc = cpu.controller.ipc := by
  by_cases hh : cpu.halted = true
  · rw [tick_of_halted hh] at htick
    cases htick
  · rw [Bool.not_eq_true] at hh
    cases hl : cpu.lookup with
    | error e' =>
        rw [tick_of_lookup_error hh hl] at htick
        cases htick
        exact ⟨rfl, rfl⟩
    | ok controls =>
        have hb := respectsBuses_of_lookup Irata.compile_instructionSet hload hl
        cases hd : cpu.datapath.step (cpu.assertedBy controls) with
        | ok d =>
            rw [tick_of_step hload.idle hh hl hb hd] at htick
            cases htick
        | error e' =>
            rw [tick_of_step_error hload.idle hh hl hb hd] at htick
            cases htick
            exact ⟨rfl, rfl⟩

/-- `Cpu::EnableTrace` -/
def enableTrace (cpu : Cpu) (depth : Nat) : Cpu := { cpu with trace := ⟨depth, []⟩ }

/-- The opcode in effect after the fetch: what the memory holds, unless an interrupt was latched. -/
def fetchedOpcode (cpu : Cpu) : Byte :=
  if cpu.controller.injectInterrupt then kIrqOpcode
  else cpu.datapath.memory.byteAt cpu.datapath.mar

end Cpu

/-! ## Runs that remember their instructions -/

/-- An instruction of a run: the states before the tick that started it and before the tick that
fetched its opcode. -/
structure InstructionStart where
  atStart : Cpu
  atFetch : Option Cpu

namespace InstructionStart

/-- The address of the opcode byte: the program counter at the boundary. -/
def address (s : InstructionStart) : Word := s.atStart.datapath.pc

/-- The opcode executed, once it has been fetched. -/
def opcode (s : InstructionStart) : Option Byte := s.atFetch.map Cpu.fetchedOpcode

/-- An interrupt is taken, or the instruction register already holds the byte that is fetched. -/
def Keeps (s : InstructionStart) : Prop :=
  ∀ cpu, s.atFetch = some cpu → s.atStart.takesInterrupt = true ∨
    s.atStart.datapath.ir = cpu.datapath.memory.byteAt cpu.datapath.mar

end InstructionStart

/-- The instructions started so far: those before the latest one, and the latest one. -/
structure History where
  past : List InstructionStart
  latest : Option InstructionStart

namespace History

def starts (h : History) : List InstructionStart := h.past ++ h.latest.toList

/-- What a tick adds. -/
def observe (h : History) (cpu : Cpu) : History :=
  if cpu.asserts .instructionStart then ⟨h.starts, some ⟨cpu, none⟩⟩
  else if cpu.asserts ByteRegister.ir.read then
    ⟨h.past, h.latest.map fun s => { s with atFetch := some cpu }⟩
  else h

end History

/-- A run of ticks and host actions since the trace was enabled. -/
inductive TraceRun (depth : Nat) (start : Cpu) : History → Cpu → Prop
  | enable : TraceRun depth start ⟨[], none⟩ (start.enableTrace depth)
  | host {h : History} {cpu : Cpu} (hrun : TraceRun depth start h cpu) (index : Nat)
      (i : HostInput) : TraceRun depth start h (cpu.host index i)
  | tick {h : History} {cpu cpu' : Cpu} (hrun : TraceRun depth start h cpu)
      (htick : Cpu.tick cpu = .ok () cpu') : TraceRun depth start (h.observe cpu) cpu'

/-- The trace and the IPC register describe the instructions started. -/
structure Describes (depth : Nat) (h : History) (cpu : Cpu) : Prop where
  length : cpu.trace.entries.length = min depth h.starts.length
  entries : List.Forall₂ (fun s e => e.instructionAddress = s.address ∧
    ∀ opcode, s.opcode = some opcode → e.ir = opcode) (lastN depth h.starts) cpu.trace.entries
  ipc : ∀ s, h.latest = some s → cpu.controller.ipc = s.address

/-- What holds throughout a run. -/
structure Traced (depth : Nat) (h : History) (cpu : Cpu) : Prop where
  loaded : cpu.Loaded Irata.program
  trace : cpu.trace = ⟨depth, lastN depth (h.starts.map (·.atStart.startEntry))⟩
  ipc : ∀ s, h.latest = some s → cpu.controller.ipc = s.address
  awaiting : ∀ s, h.latest = some s → s.atFetch = none → cpu.controller.sc = 1 ∧
    cpu.controller.injectInterrupt = s.atStart.takesInterrupt ∧
      cpu.datapath.ir = s.atStart.datapath.ir
  underway : ∀ s, h.latest = some s → ∀ c, s.atFetch = some c → cpu.controller.sc ≠ 1 ∧
    cpu.irValue = c.fetchedOpcode
  boundary : ∀ s ∈ h.starts, s.atStart.controller.sc = 0
  fetched : ∀ s ∈ h.starts, ∀ c, s.atFetch = some c →
    c.controller.injectInterrupt = s.atStart.takesInterrupt ∧
      c.datapath.ir = s.atStart.datapath.ir

/-- A deque that drops its front when it is full holds the last entries. -/
theorem record_lastN (depth : Nat) (l : List DebugTraceEntry) (e : DebugTraceEntry) :
    DebugTraceBuffer.record ⟨depth, lastN depth l⟩ e = ⟨depth, lastN depth (l ++ [e])⟩ := by
  have hlen := length_lastN depth l
  unfold DebugTraceBuffer.record
  by_cases hzero : depth = 0
  · rw [if_pos hzero, hzero]
    unfold lastN
    rw [Nat.sub_zero, Nat.sub_zero, List.drop_length, List.drop_length]
  · rw [if_neg hzero]
    by_cases hfull : depth ≤ (lastN depth l).length
    · rw [if_pos hfull, lastN_append_singleton (by omega) (by omega)]
    · rw [if_neg hfull]
      have hshort : l.length < depth := by omega
      rw [lastN_of_le (by omega), lastN_of_le]
      rw [List.length_append, List.length_singleton]
      omega

namespace Traced

variable {depth : Nat} {h : History} {cpu cpu' : Cpu}

theorem enable (hload : cpu.Loaded Irata.program) :
    Traced depth ⟨[], none⟩ (cpu.enableTrace depth) where
  loaded := ⟨⟨hload.idle.asserted, hload.idle.dataBus, hload.idle.addressBus⟩,
    hload.instructionMemory⟩
  trace := by
    show (⟨depth, []⟩ : DebugTraceBuffer) = ⟨depth, lastN depth []⟩
    rw [lastN_of_le (Nat.zero_le _)]
  ipc := fun _ hs => (by cases hs)
  awaiting := fun _ hs => (by cases hs)
  underway := fun _ hs => (by cases hs)
  boundary := fun _ hs => (by cases hs)
  fetched := fun _ hs => (by cases hs)

theorem host (ht : Traced depth h cpu) (index : Nat) (i : HostInput) :
    Traced depth h (cpu.host index i) where
  loaded := Cpu.loaded_host ht.loaded index i
  trace := ht.trace
  ipc := ht.ipc
  awaiting := ht.awaiting
  underway := ht.underway
  boundary := ht.boundary
  fetched := ht.fetched

theorem observe_starts (ht : Traced depth h cpu) (hload : cpu'.Loaded Irata.program)
    (hs : cpu.asserts .instructionStart = true) (hstep : Cpu.Starts cpu cpu') :
    Traced depth (h.observe cpu) cpu' := by
  have hobserve : h.observe cpu = ⟨h.starts, some ⟨cpu, none⟩⟩ := if_pos hs
  rw [hobserve]
  have hstarts : History.starts ⟨h.starts, some ⟨cpu, none⟩⟩ = h.starts ++ [⟨cpu, none⟩] := rfl
  constructor
  case loaded => exact hload
  case trace =>
    rw [hstep.trace, ht.trace, record_lastN, hstarts, List.map_append]
    rfl
  case ipc =>
    intro s hlatest
    cases hlatest
    exact hstep.ipc
  case awaiting =>
    intro s hlatest _
    cases hlatest
    exact ⟨hstep.sc, hstep.injectInterrupt, hstep.ir⟩
  case underway =>
    intro s hlatest c hfetch
    cases hlatest
    cases hfetch
  case boundary =>
    intro s hmem
    rw [hstarts] at hmem
    rcases List.mem_append.mp hmem with hmem | hmem
    · exact ht.boundary s hmem
    · rw [List.mem_singleton.mp hmem]
      exact hstep.scBefore
  case fetched =>
    intro s hmem c hfetch
    rw [hstarts] at hmem
    rcases List.mem_append.mp hmem with hmem | hmem
    · exact ht.fetched s hmem c hfetch
    · rw [List.mem_singleton.mp hmem] at hfetch
      cases hfetch

theorem observe_fetches (ht : Traced depth h cpu) (hload : cpu'.Loaded Irata.program)
    (hs : cpu.asserts .instructionStart = false)
    (hf : cpu.asserts ByteRegister.ir.read = true) (hstep : Cpu.Fetches cpu cpu') :
    Traced depth (h.observe cpu) cpu' := by
  have hobserve : h.observe cpu =
      ⟨h.past, h.latest.map fun s => { s with atFetch := some cpu }⟩ := by
    unfold History.observe
    rw [hs, hf]
    rfl
  rw [hobserve]
  rcases h with ⟨past, latest⟩
  cases latest with
  | none =>
      -- the trace was enabled after the start of the instruction
      exact ⟨hload, hstep.trace.trans ht.trace, fun _ hs => (by cases hs),
        fun _ hs => (by cases hs),
        fun _ hs => (by cases hs), ht.boundary, ht.fetched⟩
  | some s =>
      -- the step counter tells that nothing has been fetched for it yet
      have hnone : s.atFetch = none := by
        cases hfetch : s.atFetch with
        | none => rfl
        | some c => exact absurd hstep.scBefore (ht.underway s rfl c hfetch).1
      obtain ⟨-, hinject, hir⟩ := ht.awaiting s rfl hnone
      constructor
      case loaded => exact hload
      case trace =>
        rw [hstep.trace, ht.trace]
        show (⟨depth, lastN depth ((past ++ [s]).map _)⟩ : DebugTraceBuffer) =
          ⟨depth, lastN depth ((past ++ [{ s with atFetch := some cpu }]).map _)⟩
        rw [List.map_append, List.map_append]
        rfl
      case ipc =>
        intro t htl
        cases htl
        exact hstep.ipc.trans (ht.ipc s rfl)
      case awaiting =>
        intro t htl hnot
        cases htl
        cases hnot
      case underway =>
        intro t htl c hfetch
        cases htl
        cases hfetch
        refine ⟨?_, ?_⟩
        · rw [hstep.sc]
          decide
        · unfold Cpu.irValue Cpu.fetchedOpcode
          rw [hstep.injectInterrupt, hstep.ir]
      case boundary =>
        intro t hmem
        rcases List.mem_append.mp hmem with hmem | hmem
        · exact ht.boundary t (List.mem_append_left _ hmem)
        · rw [List.mem_singleton.mp hmem]
          exact ht.boundary s (List.mem_append_right _ (List.mem_singleton_self s))
      case fetched =>
        intro t hmem c hfetch
        rcases List.mem_append.mp hmem with hmem | hmem
        · exact ht.fetched t (List.mem_append_left _ hmem) c hfetch
        · rw [List.mem_singleton.mp hmem] at hfetch ⊢
          cases hfetch
          exact ⟨hinject, hir⟩

theorem observe_passes (ht : Traced depth h cpu) (hload : cpu'.Loaded Irata.program)
    (hs : cpu.asserts .instructionStart = false)
    (hf : cpu.asserts ByteRegister.ir.read = false) (hstep : Cpu.Passes cpu cpu') :
    Traced depth (h.observe cpu) cpu' := by
  have hobserve : h.observe cpu = h := by
    unfold History.observe
    rw [hs, hf]
    rfl
  rw [hobserve]
  have hvalue : cpu'.irValue = cpu.irValue := by
    unfold Cpu.irValue
    rw [hstep.injectInterrupt, hstep.ir]
  constructor
  case loaded => exact hload
  case trace => exact hstep.trace.trans ht.trace
  case ipc => exact fun s hlatest => hstep.ipc.trans (ht.ipc s hlatest)
  case awaiting =>
    intro s hlatest hnone
    obtain ⟨hsc, hinject, hir⟩ := ht.awaiting s hlatest hnone
    refine ⟨?_, hstep.injectInterrupt.trans hinject, hstep.ir.trans hir⟩
    rcases hstep.sc with heq | ⟨hne, -⟩
    · exact heq.trans hsc
    · exact absurd hsc hne
  case underway =>
    intro s hlatest c hfetch
    obtain ⟨hsc, hop⟩ := ht.underway s hlatest c hfetch
    refine ⟨?_, hvalue.trans hop⟩
    rcases hstep.sc with heq | ⟨-, hne⟩
    · rw [heq]
      exact hsc
    · exact hne
  case boundary => exact ht.boundary
  case fetched => exact ht.fetched

theorem of_run {start : Cpu} (hload : start.Loaded Irata.program)
    (hrun : TraceRun depth start h cpu) : Traced depth h cpu := by
  induction hrun with
  | enable => exact .enable hload
  | host _ index i ih => exact ih.host index i
  | tick _ htick ih =>
      obtain ⟨hload', hkind⟩ := Cpu.kind_of_tick ih.loaded htick
      cases hkind with
      | starts hs hstep => exact ih.observe_starts hload' hs hstep
      | fetches hs hf hstep => exact ih.observe_fetches hload' hs hf hstep
      | passes hs hf hstep => exact ih.observe_passes hload' hs hf hstep

/-- An entry shows the opcode executed exactly when the register already held it. -/
theorem entry_iff (ht : Traced depth h cpu) {s : InstructionStart} (hs : s ∈ h.starts) :
    (∀ opcode, s.opcode = some opcode → s.atStart.startEntry.ir = opcode) ↔ s.Keeps := by
  unfold InstructionStart.opcode InstructionStart.Keeps
  cases hfetch : s.atFetch with
  | none => exact ⟨fun _ _ hc => (by cases hc), fun _ _ hc => (by cases hc)⟩
  | some c =>
      obtain ⟨hinject, -⟩ := ht.fetched s hs c hfetch
      have hentry : s.atStart.startEntry.ir =
          if s.atStart.takesInterrupt then kIrqOpcode else s.atStart.datapath.ir := rfl
      have hop : c.fetchedOpcode = if s.atStart.takesInterrupt then kIrqOpcode
          else c.datapath.memory.byteAt c.datapath.mar := by
        unfold Cpu.fetchedOpcode
        rw [hinject]
      constructor
      · intro h c' hc'
        cases hc'
        have heq := h _ rfl
        rw [hentry, hop] at heq
        cases htakes : s.atStart.takesInterrupt with
        | true => exact .inl rfl
        | false =>
            rw [htakes] at heq
            exact .inr heq
      · intro h opcode hopcode
        cases hopcode
        rw [hentry, hop]
        rcases h c rfl with htakes | heq
        · rw [htakes]
          rfl
        · rw [heq]

theorem entries_eq (ht : Traced depth h cpu) :
    cpu.trace.entries = (lastN depth h.starts).map (·.atStart.startEntry) := by
  rw [ht.trace, map_lastN]

theorem length_entries (ht : Traced depth h cpu) :
    cpu.trace.entries.length = min depth h.starts.length := by
  rw [ht.entries_eq, List.length_map, length_lastN]

theorem describes_iff_keeps (ht : Traced depth h cpu) :
    Describes depth h cpu ↔ ∀ s ∈ lastN depth h.starts, s.Keeps := by
  have hmem : ∀ s ∈ lastN depth h.starts, s ∈ h.starts := fun s hs => List.mem_of_mem_drop hs
  constructor
  · intro hd s hs
    have hall := hd.entries
    rw [ht.entries_eq, List.forall₂_map_right_iff, List.forall₂_same] at hall
    exact (ht.entry_iff (hmem s hs)).mp (hall s hs).2
  · intro hkeeps
    refine ⟨ht.length_entries, ?_, ht.ipc⟩
    rw [ht.entries_eq, List.forall₂_map_right_iff, List.forall₂_same]
    intro s hs
    exact ⟨rfl, (ht.entry_iff (hmem s hs)).mpr (hkeeps s hs)⟩

end Traced

/-- In every run the trace holds the last starts with their addresses, and the IPC register that of
the instruction in progress.  The opcodes are those executed exactly when, for each start that is
still held, the instruction register already held the byte fetched, or an interrupt was taken. -/
theorem describes_trace_iff {depth : Nat} {start : Cpu} (hload : start.Loaded Irata.program)
    {h : History} {cpu : Cpu} (hrun : TraceRun depth start h cpu) :
    (Describes depth h cpu ↔ ∀ s ∈ lastN depth h.starts, s.Keeps) ∧
      -- what the history calls a start and an opcode
      (∀ s ∈ h.starts, s.atStart.controller.sc = 0) ∧
      (∀ s opcode, h.latest = some s → s.opcode = some opcode → cpu.irValue = opcode) ∧
      -- and without the opcodes
      cpu.trace.entries.length = min depth h.starts.length ∧
      cpu.trace.entries.map (·.instructionAddress) =
        (lastN depth h.starts).map InstructionStart.address ∧
      (∀ s, h.latest = some s → cpu.controller.ipc = s.address) ∧
      ∀ e cpu', Cpu.tick cpu = .error e cpu' →
        cpu'.trace = cpu.trace ∧ cpu'.controller.ipc = cpu.controller.ipc := by
  have ht := Traced.of_run hload hrun
  refine ⟨ht.describes_iff_keeps, ht.boundary, ?_, ht.length_entries, ?_, ht.ipc,
    fun e cpu' => Cpu.tick_error_frame ht.loaded⟩
  · intro s opcode hlatest hop
    obtain ⟨c, hfetch, rfl⟩ := Option.map_eq_some_iff.mp hop
    exact (ht.underway s hlatest c hfetch).2
  · rw [ht.entries_eq, List.map_map]
    rfl

/-! ## A stale opcode -/

/-- Two ticks from a boundary start an instruction and fetch its opcode. -/
theorem exists_traceRun {cpu : Cpu} (hload : cpu.Loaded Irata.program) (hh : cpu.halted = false)
    (hsc : cpu.controller.sc = 0) (hir : ∃ i ∈ Isa.instructions, cpu.datapath.ir = i.opcode)
    (depth : Nat) :
    ∃ c cpu', TraceRun depth cpu ⟨[], some ⟨cpu.enableTrace depth, some c⟩⟩ cpu' ∧
      c.datapath.mar = cpu.datapath.pc ∧ c.datapath.memory = cpu.datapath.memory := by
  have hload₀ := (@Traced.enable depth cpu hload).loaded
  obtain ⟨htick₁, -, hload₁, hh₁, hsc₁⟩ := Cpu.tick_fetch hload₀ hh
    (@Cpu.exists_irValue (cpu.enableTrace depth) hir) (k := 0) rfl hsc
    (Microstep.step_fetchStart cpu.datapath)
  have hd₁ : ((cpu.enableTrace depth).afterMicrostep
      [WordRegister.pc.write, WordRegister.mar.read, Control.instructionStart] false
      { cpu.datapath with mar := cpu.datapath.pc }).datapath =
        { cpu.datapath with mar := cpu.datapath.pc } := rfl
  generalize Cpu.afterMicrostep _ _ _ _ = cpu₁ at htick₁ hload₁ hh₁ hsc₁ hd₁
  have hir₁ : ∃ i ∈ Isa.instructions, cpu₁.irValue = i.opcode := by
    apply Cpu.exists_irValue
    rw [hd₁]
    exact hir
  obtain ⟨htick₂, -, -, -, hsc₂⟩ := Cpu.tick_fetch hload₁ hh₁ hir₁ (k := 1) rfl hsc₁
    (Microstep.step_fetchOpcode cpu₁.datapath)
  have hrun := TraceRun.tick (TraceRun.tick (@TraceRun.enable depth cpu) htick₁) htick₂
  -- the step counter tells the kinds of the two ticks
  have hstart : (cpu.enableTrace depth).asserts .instructionStart = true := by
    cases (Cpu.kind_of_tick hload₀ htick₁).2 with
    | starts hs _ => exact hs
    | fetches _ _ h => exact absurd (hsc.symm.trans h.scBefore) (by decide)
    | passes _ _ h =>
        rcases h.sc with heq | ⟨-, hne⟩
        · exact absurd (hsc₁.symm.trans (heq.trans hsc)) (by decide)
        · exact absurd hsc₁ hne
  have hfetch : cpu₁.asserts .instructionStart = false ∧
      cpu₁.asserts ByteRegister.ir.read = true := by
    cases (Cpu.kind_of_tick hload₁ htick₂).2 with
    | starts _ h => exact absurd (hsc₁.symm.trans h.scBefore) (by decide)
    | fetches hs hf _ => exact ⟨hs, hf⟩
    | passes _ _ h =>
        rcases h.sc with heq | ⟨hne, -⟩
        · exact absurd (hsc₂.symm.trans (heq.trans hsc₁)) (by decide)
        · exact absurd hsc₁ hne
  have hobserve : (History.observe ⟨[], none⟩ (cpu.enableTrace depth)).observe cpu₁ =
      ⟨[], some ⟨cpu.enableTrace depth, some cpu₁⟩⟩ := by
    unfold History.observe
    rw [hstart, hfetch.1, hfetch.2]
    rfl
  rw [hobserve] at hrun
  exact ⟨cpu₁, _, hrun, by rw [hd₁], by rw [hd₁]⟩

/-- The CPU without a cartridge fetches a zero byte from its RAM after the opcode of NOP that its
instruction register holds at first. -/
theorem exists_stale : ∃ start cpu h, Cpu.new Irata.program [] [] = .ok start ∧
    start.Loaded Irata.program ∧ TraceRun 1 start h cpu ∧
      ¬∀ s ∈ lastN 1 h.starts, s.Keeps := by
  obtain ⟨m, hm⟩ := Cpu.exists_instructionMemory
  have hnew := Cpu.new_eq Cpu.new_bareMemory hm
  have hload := Cpu.loaded_new hnew
  obtain ⟨c, cpu, hrun, hmar, hmemory⟩ := exists_traceRun hload rfl rfl Cpu.exists_nop 1
  refine ⟨_, cpu, _, hnew, hload, hrun, ?_⟩
  intro hkeeps
  have hone := hkeeps _ (List.mem_singleton_self _) c rfl
  rw [hmar, hmemory] at hone
  rcases hone with hirq | hbyte
  · cases hirq
  · have hzero : Cpu.bareMemory.byteAt 0 = 0 := by decide
    have hir : (Cpu.initial Cpu.bareMemory m).datapath.ir = 0x02 := rfl
    exact absurd (hir.symm.trans (hbyte.trans hzero)) (by decide)

/-- The trace shows the opcode of NOP for an instruction that runs under another one. -/
theorem not_describes_trace : ∃ start cpu h, Cpu.new Irata.program [] [] = .ok start ∧
    TraceRun 1 start h cpu ∧ ¬Describes 1 h cpu := by
  obtain ⟨start, cpu, h, hnew, hload, hrun, hstale⟩ := exists_stale
  refine ⟨start, cpu, h, hnew, hrun, ?_⟩
  intro hd
  exact hstale ((Traced.of_run hload hrun).describes_iff_keeps.mp hd)

theorem describes_trace_iff_stale : ∃ start cpu h, Cpu.new Irata.program [] [] = .ok start ∧
    TraceRun 1 start h cpu ∧ ¬Describes 1 h cpu ∧
      cpu.trace.entries.map (·.instructionAddress) = (lastN 1 h.starts).map (·.address) := by
  obtain ⟨start, cpu, h, hnew, hload, hrun, hstale⟩ := exists_stale
  obtain ⟨hiff, -, -, -, haddresses, -⟩ := describes_trace_iff hload hrun
  exact ⟨start, cpu, h, hnew, hrun, fun hd => hstale (hiff.mp hd), haddresses⟩

end Irata2.Sim
