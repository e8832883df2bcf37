import Irata2.Microcode.Source
import Irata2.Sim.Access
import Irata2.Sim.Refinement

/-!
# From steps to ticks

A CPU on a compiled program takes the steps of a variant one tick each.  As long as the steps
leave the opcode and the conditions of the variant alone, the ticks do to the datapath what
`Datapath.run` does, and the last one returns the step counter to zero.
-/

namespace Irata2.Sim

open Hdl Library Library.StateRun Microcode

/-! ## Registers that a step keeps -/

namespace Datapath

/-- A register that no involved component changes survives the step. -/
theorem step_keeps {α : Type*} {l : List Control} {d d' : Datapath} (π : Datapath → α)
    (hmem : ∀ (d : Datapath) memory, π { d with memory } = π d)
    (hread : ∀ c, reads l c = true → ∀ b d, π (Component.read (on l) b d c) = π d)
    (hprocess : ∀ c, processes l c = true → ∀ d, π (Component.process (on l) d c) = π d)
    (h : d.step (on l) = .ok d') : π d' = π d := by
  have hwrite : ∀ (cs : List Component) (w : Datapath × Buses),
      π (cs.foldl (fun w c => c.write (on l) w) w).1 = π w.1 := by
    intro cs
    induction cs with
    | nil => exact fun _ => rfl
    | cons c cs ih =>
        intro w
        rw [List.foldl_cons, ih]
        cases c with
        | memory =>
            simp only [Component.write]
            split
            · exact hmem _ _
            · rfl
        | byteRegister r =>
            simp only [Component.write]
            split <;> rfl
        | wordRegister r =>
            simp only [Component.write]
            split <;> rfl
        | _ => rfl
  have hfold : ∀ (p : Component → Bool) (f : Datapath → Component → Datapath),
      (∀ c, p c = true → ∀ d, π (f d c) = π d) →
      ∀ (cs : List Component) (d : Datapath), π ((cs.filter p).foldl f d) = π d := by
    intro p f hf cs
    induction cs with
    | nil => exact fun _ => rfl
    | cons c cs ih =>
        intro d
        by_cases hc : p c = true
        · rw [List.filter_cons_of_pos hc, List.foldl_cons, ih, hf c hc]
        · rw [List.filter_cons_of_neg hc, ih]
  rw [step_on] at h
  unfold stepOn at h
  dsimp only at h
  split at h
  · rcases hm : Memory.writeAt _ _ _ with e | memory <;> rw [hm] at h
    · cases h
    · cases h
      rw [hfold _ _ hprocess, hfold _ _ (fun c hc => hread c hc _), hmem,
        hfold _ _ (fun c hc => hread c hc _), hwrite]
  · cases h
    rw [hfold _ _ hprocess, hfold _ _ (fun c hc => hread c hc _),
      hfold _ _ (fun c hc => hread c hc _), hwrite]

/-- The controls that change the instruction register. -/
def changesIr (c : Control) : Bool := c == .readByte .ir || c == .resetByte .ir

/-- The controls that change the status register. -/
def changesStatus : Control → Bool
  | .readByte .status | .readByte .statusAnalyzer | .resetByte .status => true
  | .aluOpcodeBit _ | .setStatus _ | .clearStatus _ => true
  | _ => false

theorem step_ir {l : List Control} {d d' : Datapath} (hl : l.any changesIr = false)
    (h : d.step (on l) = .ok d') : d'.ir = d.ir := by
  rw [List.any_eq_false] at hl
  refine step_keeps (·.ir) (fun _ _ => rfl) ?_ ?_ h
  · intro c hc b d
    cases c with
    | byteRegister r =>
        have hmem : r.read ∈ l := of_decide_eq_true hc
        cases r with
        | ir => exact absurd rfl (hl _ hmem)
        | _ => simp only [Component.read]; split <;> rfl
    | wordRegister r => cases r <;> (simp only [Component.read]; split <;> rfl)
    | _ => rfl
  · intro c hc d
    cases c with
    | byteRegister r =>
        cases r with
        | ir =>
            have hmem : ByteRegister.ir.reset ∈ l := of_decide_eq_true hc
            exact absurd rfl (hl _ hmem)
        | sp => simp only [Component.process]; split_ifs <;> rfl
        | _ => simp only [Component.process]; split <;> rfl
    | wordRegister r =>
        cases r <;> (simp only [Component.process]; split_ifs <;> rfl)
    | statusBit f => simp only [Component.process]; split <;> rfl
    | _ => rfl

/-- The controls that can change one bit of the status register. -/
def changesBit (f : StatusBit) : Control → Bool
  | .readByte .status | .resetByte .status => true
  | .readByte .statusAnalyzer => f == .zero || f == .negative
  | .aluOpcodeBit _ => f == .carry || f == .overflow
  | .setStatus g | .clearStatus g => f == g
  | _ => false

/-- The arithmetic unit touches the carry and the overflow only. -/
theorem value_executeAlu {f : StatusBit} (hc : f ≠ .carry) (hv : f ≠ .overflow) (d : Datapath)
    (opcode : Nat) :
    Status.value f (d.executeAlu opcode).status = Status.value f d.status := by
  show Status.value f (Alu.execute opcode d.aluLhs d.aluRhs d.aluResult d.status).status = _
  unfold Alu.execute
  split <;> simp only [Status.value_assign, if_neg hc, if_neg hv]

theorem value_analyze {f : StatusBit} (hz : f ≠ .zero) (hn : f ≠ .negative) (d : Datapath) :
    Status.value f d.analyze.status = Status.value f d.status := by
  show Status.value f (Status.assign .negative _ (Status.assign .zero _ d.status)) = _
  rw [Status.value_assign, if_neg hn, Status.value_assign, if_neg hz]

theorem step_value {l : List Control} {f : StatusBit} {d d' : Datapath}
    (hl : l.any (changesBit f) = false) (h : d.step (on l) = .ok d') :
    Status.value f d'.status = Status.value f d.status := by
  rw [List.any_eq_false] at hl
  -- reads and resets touch a flag through the status register, the analyzer, the flag itself and
  -- the unit
  refine step_keeps (fun d => Status.value f d.status) (fun _ _ => rfl) ?_ ?_ h
  · intro c hc b d
    cases c with
    | byteRegister r =>
        have hmem : r.read ∈ l := of_decide_eq_true hc
        cases r with
        | status => exact absurd rfl (hl _ hmem)
        | statusAnalyzer =>
            have hbits : f ≠ .zero ∧ f ≠ .negative := by
              simpa [changesBit] using hl _ hmem
            simp only [Component.read]
            split
            · exact value_analyze hbits.1 hbits.2 _
            · rfl
        | _ => simp only [Component.read]; split <;> rfl
    | wordRegister r => cases r <;> (simp only [Component.read]; split <;> rfl)
    | _ => rfl
  · intro c hc d
    cases c with
    | byteRegister r =>
        cases r with
        | status =>
            have hmem : ByteRegister.status.reset ∈ l := of_decide_eq_true hc
            exact absurd rfl (hl _ hmem)
        | sp => simp only [Component.process]; split_ifs <;> rfl
        | _ => simp only [Component.process]; split <;> rfl
    | wordRegister r =>
        cases r <;> (simp only [Component.process]; split_ifs <;> rfl)
    | statusBit g =>
        have hmem : g.set ∈ l ∨ g.clear ∈ l := by
          simpa [processes] using hc
        have hne : f ≠ g := by
          rcases hmem with hmem | hmem <;> simpa [changesBit] using hl _ hmem
        simp only [Component.process]
        split
        · exact (Status.value_assign _ _ _ _).trans (if_neg hne)
        · rfl
    | alu =>
        have hmem : ∃ i, Control.aluOpcodeBit i ∈ l := by
          simp only [processes, Bool.or_eq_true, decide_eq_true_eq] at hc
          rcases hc with ((hc | hc) | hc) | hc <;> exact ⟨_, hc⟩
        rcases hmem with ⟨i, hmem⟩
        have hbits : f ≠ .carry ∧ f ≠ .overflow := by
          simpa [changesBit] using hl _ hmem
        exact value_executeAlu hbits.1 hbits.2 d _
    | _ => rfl

theorem changesStatus_of_changesBit {f : StatusBit} {c : Control} (h : changesBit f c = true) :
    changesStatus c = true := by
  cases c with
  | readByte r => cases r <;> first | rfl | cases h
  | resetByte r => cases r <;> first | rfl | cases h
  | aluOpcodeBit _ | setStatus _ | clearStatus _ => rfl
  | _ => cases h

theorem step_status {l : List Control} {d d' : Datapath} (hl : l.any changesStatus = false)
    (h : d.step (on l) = .ok d') : d'.status = d.status := by
  refine Status.ext_value fun f => step_value ?_ h
  rw [List.any_eq_false] at *
  exact fun c hc hf => hl c hc (changesStatus_of_changesBit hf)

end Datapath

/-! ## One tick -/

/-- The controls of the steps of a variant, from the preamble on. -/
def microSteps (preamble steps : List Microcode.Step) : List (List Control) :=
  (preamble ++ steps).map (·.controls)

theorem getElem?_compiledSteps {preamble steps : List Microcode.Step}
    (hp : ∀ s ∈ preamble, s.IsSource) (hs : ∀ s ∈ steps, s.IsSource) (k : Nat)
    {l : List Control} (hl : (microSteps preamble steps)[k]? = some l) :
    ∃ s, (compiledSteps preamble steps)[k]? = some s ∧
      s.controls = l ++ [sequenceControl .scIncrement .scReset
        (microSteps preamble steps).length k] := by
  have hcontrols : (prefixSteps preamble steps).map (·.controls) = microSteps preamble steps := by
    unfold prefixSteps microSteps
    split
    · rename_i hempty
      rw [List.isEmpty_iff.mp hempty]
      rfl
    · rw [List.map_append, List.map_append, List.map_map]
      rfl
  have hlength : (prefixSteps preamble steps).length = (microSteps preamble steps).length := by
    rw [← hcontrols, List.length_map]
  rw [← hcontrols, List.getElem?_map] at hl
  rcases Option.map_eq_some_iff.mp hl with ⟨s, hsk, rfl⟩
  refine ⟨s.sequenced _, ?_, rfl⟩
  unfold compiledSteps
  rw [sequenceSteps_eq (owner_prefixSteps hp hs), List.getElem?_map, List.getElem?_zipIdx, hsk,
    ← hlength]
  show some _ = some _
  rw [Nat.zero_add]

namespace Cpu

/-- The state after a tick that ran a step of microcode. -/
def afterMicrostep (cpu : Cpu) (l : List Control) (last : Bool) (d : Datapath) : Cpu :=
  cpu.afterTick (cpu.assertedBy (l ++ [if last then .scReset else .scIncrement])) d

/-- The CPU is about to run the first step of `rest`, the steps that are left of a variant. -/
structure AtSteps (is : InstructionSet) (i : Instruction) (v : InstructionVariant)
    (rest : List (List Control)) (cpu : Cpu) : Prop where
  instruction : i ∈ is.instructions
  variant : v ∈ i.variants
  opcode : cpu.irValue = i.opcode
  holds : v.holds cpu.datapath.status = true
  rest : (microSteps is.fetchPreamble v.steps).drop cpu.controller.sc.toNat = rest

section Accepted

variable {c : Compiler} {is : InstructionSet} {p : MicrocodeProgram} {cpu : Cpu}
  {i : Instruction} {v : InstructionVariant}

theorem length_microSteps (ha : c.Accepts is) (hi : i ∈ is.instructions) (hv : v ∈ i.variants) :
    (microSteps is.fetchPreamble v.steps).length ≤ 256 := by
  unfold microSteps
  rw [List.length_map, List.length_append]
  exact ha.length i hi v hv

/-- The lookup of the step the CPU is at. -/
theorem lookup_of_atSteps (ha : c.Accepts is) (hc : c.compile is = .ok p) (hload : cpu.Loaded p)
    {l : List Control} {rest : List (List Control)} (hat : AtSteps is i v (l :: rest) cpu) :
    ∃ controls, cpu.lookup = .ok controls ∧
      cpu.assertedBy controls =
        cpu.assertedBy (l ++ [if rest.isEmpty then .scReset else .scIncrement]) := by
  rcases exists_ir_of_compile hc with ⟨ir, hir, hvalid, henc⟩
  cases hir.symm.trans (Compiler.optimizedIr_eq ha)
  have hk : (microSteps is.fetchPreamble v.steps)[cpu.controller.sc.toNat]? = some l := by
    rw [← List.head?_drop, hat.rest]
    rfl
  have hlen : (microSteps is.fetchPreamble v.steps).length =
      cpu.controller.sc.toNat + (rest.length + 1) := by
    have hdrop := congrArg List.length hat.rest
    rw [List.length_drop, List.length_cons] at hdrop
    have hlt := (List.getElem?_eq_some_iff.mp hk).1
    omega
  rcases getElem?_compiledSteps ha.preamble
    (ha.steps i hat.instruction v hat.variant) _ hk with ⟨s, hs, hcontrols⟩
  have hlast : sequenceControl .scIncrement .scReset
      (microSteps is.fetchPreamble v.steps).length cpu.controller.sc.toNat =
        if rest.isEmpty then .scReset else .scIncrement := by
    unfold sequenceControl
    rw [hlen]
    cases rest with
    | nil => exact if_pos rfl
    | cons m rest =>
        refine if_neg ?_
        rw [List.length_cons]
        omega
  have hlookup := lookup_of_holds hvalid henc hload.instructionMemory
    (List.mem_map_of_mem hat.instruction) (List.mem_map_of_mem hat.variant) hat.holds hs
  rw [BitVec.ofNat_toNat, BitVec.setWidth_eq] at hlookup
  refine ⟨InstructionMemory.decode (encodeControls s.controls), ?_, ?_⟩
  · unfold lookup encodedStatus
    rw [hat.opcode]
    exact hlookup
  · have hmem : ∀ e, e ∈ InstructionMemory.decode (encodeControls s.controls) ↔
        e ∈ l ++ [if rest.isEmpty then Control.scReset else .scIncrement] := by
      intro e
      rw [InstructionMemory.mem_decode_encodeControls, hcontrols, hlast]
    funext e
    unfold assertedBy irqLevel
    rw [decide_eq_decide.mpr (hmem e), decide_eq_decide.mpr (hmem .irqLine)]

/-- The control of the step counter does not reach the datapath. -/
theorem on_of_sequenced {controls l : List Control} {last : Bool}
    (h : cpu.assertedBy controls =
      cpu.assertedBy (l ++ [if last then .scReset else .scIncrement])) {e : Control}
    (he : e.isDatapath = true) : cpu.assertedBy controls e = Datapath.on l e := by
  rw [h]
  unfold assertedBy Datapath.on
  have hne : e ≠ .irqLine := by
    rintro rfl
    cases he
  rw [if_neg hne, decide_eq_decide, List.mem_append, List.mem_singleton]
  apply or_iff_left
  rintro rfl
  split at he <;> cases he

/-- A tick runs the step that the CPU is at. -/
theorem tick_of_atSteps (ha : c.Accepts is) (hc : c.compile is = .ok p) (hload : cpu.Loaded p)
    (hh : cpu.halted = false) {l : List Control} {rest : List (List Control)}
    (hat : AtSteps is i v (l :: rest) cpu) {d : Datapath}
    (hd : cpu.datapath.step (Datapath.on l) = .ok d) :
    tick cpu = .ok () (cpu.afterMicrostep l rest.isEmpty d) := by
  rcases lookup_of_atSteps ha hc hload hat with ⟨controls, hlookup, hasserted⟩
  have hbuses := respectsBuses_of_lookup hc hload hlookup
  have hstep := (Datapath.step_congr (fun _ he => on_of_sequenced hasserted he) _).trans hd
  unfold afterMicrostep
  rw [← hasserted]
  exact tick_of_step hload.idle hh hlookup hbuses hstep

/-- A tick throws when the store of the step fails. -/
theorem tick_error_of_atSteps (ha : c.Accepts is) (hc : c.compile is = .ok p)
    (hload : cpu.Loaded p) (hh : cpu.halted = false) {l : List Control}
    {rest : List (List Control)} (hat : AtSteps is i v (l :: rest) cpu) {e : SimError}
    (he : cpu.datapath.step (Datapath.on l) = .error e) : ∃ cpu', tick cpu = .error e cpu' := by
  rcases lookup_of_atSteps ha hc hload hat with ⟨controls, hlookup, hasserted⟩
  have hbuses := respectsBuses_of_lookup hc hload hlookup
  have hstep := (Datapath.step_congr (fun _ he => on_of_sequenced hasserted he) _).trans he
  exact ⟨_, tick_of_step_error hload.idle hh hlookup hbuses hstep⟩

/-- The accesses of the step that the CPU is at. -/
theorem accesses_of_atSteps (ha : c.Accepts is) (hc : c.compile is = .ok p)
    (hload : cpu.Loaded p) (hh : cpu.halted = false) {l : List Control}
    {rest : List (List Control)} (hat : AtSteps is i v (l :: rest) cpu) :
    cpu.accesses = Datapath.accessesAt l cpu.datapath.mar := by
  rcases lookup_of_atSteps ha hc hload hat with ⟨controls, hlookup, hasserted⟩
  rw [accesses_of_lookup hh hlookup, Datapath.accesses_congr (on_of_sequenced hasserted rfl)
    (on_of_sequenced hasserted rfl), Datapath.accesses_on]

end Accepted

/-! ## The state after a step -/

section AfterMicrostep

variable {cpu : Cpu} {l : List Control} {last : Bool} {d : Datapath}

theorem mem_microstep {e : Control} (he : e.owner ≠ .sc) :
    e ∈ l ++ [if last then Control.scReset else .scIncrement] ↔ e ∈ l := by
  rw [List.mem_append, List.mem_singleton]
  refine or_iff_left ?_
  rintro rfl
  apply he
  split <;> rfl

theorem assertedBy_microstep {e : Control} (he : e.owner ≠ .sc) (hirq : e ≠ .irqLine) :
    cpu.assertedBy (l ++ [if last then .scReset else .scIncrement]) e = decide (e ∈ l) := by
  unfold assertedBy
  rw [if_neg hirq, decide_eq_decide]
  exact mem_microstep he

theorem sc_afterMicrostep (hl : ∀ e ∈ l, e.owner ≠ .sc) :
    (cpu.afterMicrostep l last d).controller.sc = if last then 0 else cpu.controller.sc + 1 := by
  have hne : ∀ e, e.owner = .sc → e ∉ l := fun e he hmem => hl e hmem he
  have hasserted : ∀ e, e.owner = .sc → e ≠ .irqLine →
      cpu.assertedBy (l ++ [if last then .scReset else .scIncrement]) e =
        decide (e = if last then .scReset else .scIncrement) := by
    intro e he hirq
    unfold assertedBy
    rw [if_neg hirq, decide_eq_decide, List.mem_append, List.mem_singleton]
    exact or_iff_right (hne e he)
  show (if _ then _ else if _ then _ else if _ then _ else _ : Byte) = _
  rw [hasserted .scReset rfl (by decide), hasserted .scIncrement rfl (by decide),
    hasserted .scDecrement rfl (by decide)]
  cases last <;> rfl

theorem injectInterrupt_afterMicrostep (hirq : Control.irqLine ∉ l) :
    (cpu.afterMicrostep l last d).controller.injectInterrupt =
      if ByteRegister.ir.reset ∈ l then false
      else if Control.instructionStart ∈ l then
        cpu.irqLevel [] && !Status.value .interruptDisable d.status
      else cpu.controller.injectInterrupt := by
  have hlevel : cpu.assertedBy (l ++ [if last then .scReset else .scIncrement]) .irqLine =
      cpu.irqLevel [] := by
    have hnot : Control.irqLine ∉ l ++ [if last then Control.scReset else .scIncrement] := by
      rw [mem_microstep (by decide)]
      exact hirq
    unfold assertedBy irqLevel
    rw [if_pos rfl, decide_eq_false hnot]
    rfl
  show (if _ then _ else if _ then _ else _ : Bool) = _
  rw [assertedBy_microstep (by decide) (by decide), assertedBy_microstep (by decide) (by decide),
    hlevel]
  simp only [decide_eq_true_eq]

theorem halted_afterMicrostep :
    (cpu.afterMicrostep l last d).halted =
      (cpu.halted || decide (Control.halt ∈ l) || decide (Control.crash ∈ l)) := by
  show (cpu.halted || _ || _) = _
  rw [assertedBy_microstep (by decide) (by decide), assertedBy_microstep (by decide) (by decide)]

theorem loaded_afterMicrostep {p : MicrocodeProgram} (h : cpu.Loaded p) :
    (cpu.afterMicrostep l last d).Loaded p :=
  ⟨idle_afterTick cpu _ d, h.instructionMemory⟩

end AfterMicrostep

/-! ## Straight-line steps -/

/-- Steps that neither start an instruction, nor stop the CPU, nor touch what selects the
microcode. -/
def isPlain (l : List Control) : Bool :=
  l.all fun e =>
    e.owner != .sc && e != .irqLine && e != .instructionStart && e != .halt && e != .crash &&
      !Datapath.changesIr e

/-- Steps that leave the conditions of a variant alone. -/
def KeepsVariant (v : InstructionVariant) (steps : List (List Control)) : Prop :=
  v.statusConditions = [] ∨ ∀ l ∈ steps, l.any Datapath.changesStatus = false

section Plain

variable {l : List Control} (h : isPlain l = true)

include h

theorem owner_of_isPlain {e : Control} (he : e ∈ l) : e.owner ≠ .sc := by
  have hall := List.all_eq_true.mp h e he
  simp only [Bool.and_eq_true, bne_iff_ne] at hall
  exact hall.1.1.1.1.1

theorem not_mem_of_isPlain {e : Control}
    (he : e ∈ [Control.irqLine, .instructionStart, .halt, .crash, .readByte .ir, .resetByte .ir]) :
    e ∉ l := by
  intro hmem
  have hall := List.all_eq_true.mp h e hmem
  simp only [List.mem_cons, List.not_mem_nil, or_false] at he
  rcases he with rfl | rfl | rfl | rfl | rfl | rfl <;> cases hall

theorem changesIr_of_isPlain : l.any Datapath.changesIr = false := by
  rw [List.any_eq_false]
  intro e he
  have hall := List.all_eq_true.mp h e he
  simp only [Bool.and_eq_true, Bool.not_eq_true'] at hall
  rw [hall.2]
  decide

end Plain

section Accepted

variable {c : Compiler} {is : InstructionSet} {p : MicrocodeProgram} {cpu : Cpu}
  {i : Instruction} {v : InstructionVariant}

/-- Where a CPU is after some plain steps of a variant. -/
structure Reaches (p : MicrocodeProgram) (is : InstructionSet) (i : Instruction)
    (v : InstructionVariant) (steps rest : List (List Control)) (cpu cpu' : Cpu) : Prop where
  loaded : cpu'.Loaded p
  halted : cpu'.halted = false
  injectInterrupt : cpu'.controller.injectInterrupt = cpu.controller.injectInterrupt
  ir : cpu'.datapath.ir = cpu.datapath.ir
  sc : cpu'.controller.sc.toNat =
    if rest = [] then 0 else cpu.controller.sc.toNat + steps.length
  atSteps : rest ≠ [] → AtSteps is i v rest cpu'

theorem holds_of_keepsVariant {steps : List (List Control)} (h : KeepsVariant v steps)
    {l : List Control} (hl : l ∈ steps) {d d' : Datapath} (hv : v.holds d.status = true)
    (hstep : d.step (Datapath.on l) = .ok d') : v.holds d'.status = true := by
  rcases h with h | h
  · unfold InstructionVariant.holds
    rw [h]
    rfl
  · rw [Datapath.step_status (h l hl) hstep]
    exact hv

/-- The state after one plain step. -/
theorem reaches_afterMicrostep (ha : c.Accepts is) (hload : cpu.Loaded p)
    (hh : cpu.halted = false) {l : List Control} {rest : List (List Control)}
    (hat : AtSteps is i v (l :: rest) cpu) (hl : isPlain l = true) (hkeep : KeepsVariant v [l])
    {d : Datapath} (hd : cpu.datapath.step (Datapath.on l) = .ok d) :
    Reaches p is i v [l] rest cpu (cpu.afterMicrostep l rest.isEmpty d) := by
  have hinject : (cpu.afterMicrostep l rest.isEmpty d).controller.injectInterrupt =
      cpu.controller.injectInterrupt := by
    rw [injectInterrupt_afterMicrostep (not_mem_of_isPlain hl (by decide)),
      if_neg (not_mem_of_isPlain hl (by decide)), if_neg (not_mem_of_isPlain hl (by decide))]
  have hir : d.ir = cpu.datapath.ir := Datapath.step_ir (changesIr_of_isPlain hl) hd
  have hsc : (cpu.afterMicrostep l rest.isEmpty d).controller.sc.toNat =
      if rest = [] then 0 else cpu.controller.sc.toNat + 1 := by
    rw [sc_afterMicrostep fun e he => owner_of_isPlain hl he]
    cases rest with
    | nil => rfl
    | cons m rest =>
        have hlen := length_microSteps ha hat.instruction hat.variant
        have hdrop := congrArg List.length hat.rest
        rw [List.length_drop, List.length_cons, List.length_cons] at hdrop
        show (cpu.controller.sc + 1#8).toNat = cpu.controller.sc.toNat + 1
        rw [BitVec.toNat_add]
        show (cpu.controller.sc.toNat + 1) % 256 = _
        omega
  refine ⟨loaded_afterMicrostep hload, ?_, hinject, hir, hsc, fun hne => ?_⟩
  · rw [halted_afterMicrostep, hh, decide_eq_false (not_mem_of_isPlain hl (by decide)),
      decide_eq_false (not_mem_of_isPlain hl (by decide))]
    rfl
  · refine ⟨hat.instruction, hat.variant, ?_, ?_, ?_⟩
    · rw [← hat.opcode]
      unfold irValue
      rw [hinject]
      show (if _ then _ else d.ir) = _
      rw [hir]
    · exact holds_of_keepsVariant hkeep (List.mem_singleton_self l) hat.holds hd
    · rw [hsc, if_neg hne, ← List.drop_drop, hat.rest]
      rfl

/-- Ticks that leave the given datapath in a CPU with a property, or throw the given error. -/
def EndsIn (P : Cpu → Prop) : Except SimError Datapath → EStateM.Result SimError Cpu Unit → Prop
  | .ok d, result => ∃ cpu, result = .ok () cpu ∧ cpu.datapath = d ∧ P cpu
  | .error e, result => ∃ cpu, result = .error e cpu

/-- Ticks run plain steps as `Datapath.run` does, with the accesses of `Datapath.trace`. -/
theorem ticks_of_runs (ha : c.Accepts is) (hc : c.compile is = .ok p)
    {steps rest : List (List Control)} (hne : steps ≠ []) (hload : cpu.Loaded p)
    (hh : cpu.halted = false) (hat : AtSteps is i v (steps ++ rest) cpu)
    (hplain : ∀ l ∈ steps, isPlain l = true) (hkeep : KeepsVariant v steps) {log : List Access}
    {r : Except SimError Datapath} (hruns : Datapath.Runs steps cpu.datapath log r) :
    accessLog steps.length cpu = log ∧
      EndsIn (Reaches p is i v steps rest cpu) r (ticks steps.length cpu) := by
  rcases hruns with ⟨rfl, rfl⟩
  induction steps generalizing cpu with
  | nil => exact absurd rfl hne
  | cons l steps ih =>
      have haccess := accesses_of_atSteps ha hc hload hh hat
      rw [List.forall_mem_cons] at hplain
      cases hd : cpu.datapath.step (Datapath.on l) with
      | error e =>
          -- the store fails, and there is no later access
          rcases tick_error_of_atSteps ha hc hload hh hat hd with ⟨cpu', htick⟩
          rcases Datapath.Runs.of_error hd steps with ⟨htrace, hrun⟩
          rw [htrace, hrun]
          exact ⟨(accessLog_of_error htick _).trans haccess, cpu', bind_of_error htick⟩
      | ok d₁ =>
          have hkeep₁ : KeepsVariant v [l] := hkeep.imp_right fun h m hm => by
            rw [List.mem_singleton.mp hm]
            exact h l List.mem_cons_self
          have hkeep₂ : KeepsVariant v steps :=
            hkeep.imp_right fun h m hm => h m (List.mem_cons_of_mem _ hm)
          have htick := tick_of_atSteps ha hc hload hh hat hd
          have hreach := reaches_afterMicrostep ha hload hh hat hplain.1 hkeep₁ hd
          rw [Datapath.Runs.trace_cons hd, Datapath.run_cons hd, List.length_cons,
            accessLog_succ htick, ticks_succ htick, haccess]
          cases hsteps : steps with
          | nil =>
              subst hsteps
              exact ⟨rfl, _, rfl, rfl, hreach⟩
          | cons m steps' =>
              rw [← hsteps]
              have hnil : steps ≠ [] := by
                rw [hsteps]
                exact List.cons_ne_nil _ _
              have hrest : steps ++ rest ≠ [] := fun h => hnil (List.append_eq_nil_iff.mp h).1
              rcases ih hnil hreach.loaded hreach.halted (hreach.atSteps hrest) hplain.2 hkeep₂
                with ⟨hlog, hend⟩
              refine ⟨congrArg _ hlog, ?_⟩
              have hdatapath : (cpu.afterMicrostep l (steps.append rest).isEmpty d₁).datapath = d₁ :=
                rfl
              rw [hdatapath] at hend
              cases hrun : Datapath.run steps d₁ with
              | error e =>
                  rw [hrun] at hend
                  exact hend
              | ok d =>
                  rw [hrun] at hend
                  rcases hend with ⟨cpu', hticks, hd', hr⟩
                  refine ⟨cpu', hticks, hd', hr.loaded, hr.halted, hr.injectInterrupt.trans
                    hreach.injectInterrupt, hr.ir.trans hreach.ir, ?_, hr.atSteps⟩
                  rw [hr.sc, hreach.sc.trans (if_neg hrest)]
                  simp only [List.length_cons, List.length_nil]
                  split
                  · rfl
                  · omega

end Accepted

end Cpu

end Irata2.Sim
