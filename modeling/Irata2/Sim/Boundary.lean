import Irata2.Microcode.Program
import Irata2.Sim.Bodies
import Irata2.Sim.Sequencing

/-!
# From one instruction to the next

At an instruction boundary the step counter is zero and the instruction register holds the opcode
of the instruction before.  The fetch preamble latches whether an interrupt is taken, reads the
next opcode and steps over it; then the body of the instruction runs and returns the step counter
to zero.  Between two boundaries the CPU does what the architecture says.
-/

namespace Irata2.Sim

open Hdl Hdl.Control Hdl.ByteRegister Hdl.WordRegister Isa Library Library.StateRun Microcode
open Irata (body)

/-! ## The variant of an instruction -/

/-- The variant that runs under a status. -/
def variantOn (i : InstructionInfo) (status : Byte) : InstructionVariant :=
  match i.mnemonic.condition with
  | none => ⟨[], Irata.ownSteps (body i.addressingMode (i.mnemonic.action i.addressingMode)),
      sorted_nil⟩
  | some (f, v) =>
      if Status.value f status = v then
        Irata.on f.name v (body i.addressingMode (i.mnemonic.action i.addressingMode))
      else Irata.on f.name (!v) (body i.addressingMode i.mnemonic.otherwise)

theorem variantOn_mem (i : InstructionInfo) (status : Byte) :
    variantOn i status ∈ (Irata.implementation i).variants := by
  show _ ∈ Irata.variantsOf i
  unfold variantOn Irata.variantsOf
  cases i.mnemonic.condition with
  | none => exact List.mem_singleton_self _
  | some c =>
      rcases c with ⟨f, v⟩
      by_cases h : Status.value f status = v
      · simp only [if_pos h]
        exact List.mem_cons_self
      · simp only [if_neg h]
        exact List.mem_cons_of_mem _ List.mem_cons_self

theorem holds_on (f : StatusBit) (steps : List (List Control)) (status : Byte) :
    (Irata.on f.name (Status.value f status) steps).holds status = true := by
  rw [holds_iff]
  intro name value hmem
  cases List.mem_singleton.mp hmem
  exact ⟨f, rfl, rfl⟩

theorem holds_variantOn (i : InstructionInfo) (status : Byte) :
    (variantOn i status).holds status = true := by
  unfold variantOn
  cases i.mnemonic.condition with
  | none => rfl
  | some c =>
      rcases c with ⟨f, v⟩
      show InstructionVariant.holds (if _ then _ else _) status = true
      split
      · rename_i h
        rw [← h]
        exact holds_on f _ status
      · rename_i h
        have hv : (!v) = Status.value f status := by
          cases v <;> cases hs : Status.value f status <;> simp_all
        rw [hv]
        exact holds_on f _ status

theorem controls_ownSteps (steps : List (List Control)) :
    (Irata.ownSteps steps).map (·.controls) = steps := by
  unfold Irata.ownSteps
  rw [List.map_map]
  exact List.map_id steps

/-- The steps that every instruction begins with. -/
def fetchSteps : List (List Control) :=
  [[pc.write, mar.read, instructionStart], [memoryWrite, ir.read], [pcIncrement]]

/-- The body of an instruction under a status. -/
def bodyOn (i : InstructionInfo) (status : Byte) : List (List Control) :=
  body i.addressingMode (actionOn i status)

theorem microSteps_variantOn (i : InstructionInfo) (status : Byte) :
    microSteps Irata.instructionSet.fetchPreamble (variantOn i status).steps =
      fetchSteps ++ bodyOn i status := by
  have hsteps : (variantOn i status).steps =
      Irata.ownSteps (body i.addressingMode (actionOn i status)) := by
    unfold variantOn actionOn
    cases i.mnemonic.condition with
    | none => rfl
    | some c =>
        show InstructionVariant.steps (if _ then _ else _) = Irata.ownSteps (body _ (if _ then _ else _))
        split <;> rfl
  unfold microSteps
  rw [hsteps, List.map_append, controls_ownSteps]
  rfl

namespace Cpu

/-! ## Fetching -/

/-- Between two instructions of the default microcode. -/
structure AtBoundary (cpu : Cpu) : Prop where
  loaded : cpu.Loaded Irata.program
  halted : cpu.halted = false
  sc : cpu.controller.sc = 0
  ir : ∃ i ∈ Isa.instructions, cpu.datapath.ir = i.opcode
  lowRam : cpu.datapath.memory.LowRam

/-- Whether the next instruction start takes an interrupt. -/
def takesInterrupt (cpu : Cpu) : Bool :=
  cpu.irqLevel [] && !Status.value .interruptDisable cpu.datapath.status

/-- The opcode that the next instruction runs under. -/
def nextOpcode (cpu : Cpu) : Byte :=
  if cpu.takesInterrupt then kIrqOpcode else cpu.datapath.memory.byteAt cpu.datapath.pc

theorem atSteps_of_irValue {cpu : Cpu} {i : InstructionInfo} (hi : i ∈ Isa.instructions)
    (hir : cpu.irValue = i.opcode) {rest : List (List Control)}
    (hrest : (fetchSteps ++ bodyOn i cpu.datapath.status).drop cpu.controller.sc.toNat = rest) :
    AtSteps Irata.instructionSet (Irata.implementation i) (variantOn i cpu.datapath.status) rest
      cpu where
  instruction := Irata.mem_instructionSet i hi
  variant := variantOn_mem i _
  opcode := hir
  holds := holds_variantOn i _
  rest := by
    rw [microSteps_variantOn]
    exact hrest

theorem exists_irq : ∃ i ∈ Isa.instructions, kIrqOpcode = i.opcode := by
  decide +kernel

/-- The opcode in effect is one of the table when the stored one is. -/
theorem exists_irValue {cpu : Cpu} (h : ∃ i ∈ Isa.instructions, cpu.datapath.ir = i.opcode) :
    ∃ i ∈ Isa.instructions, cpu.irValue = i.opcode := by
  unfold irValue
  split
  · exact exists_irq
  · exact h

theorem body_ne_nil (mode : AddressingMode) (action : Isa.Action) : body mode action ≠ [] := by
  unfold body
  split
  · exact List.cons_ne_nil _ _
  · rename_i hpass
    have hsteps : Irata.actionSteps action ≠ [] := by
      cases action <;> first | exact absurd rfl hpass | exact List.cons_ne_nil _ _
    have hincrement : Irata.withIncrement (Irata.actionSteps action) ≠ [] := by
      cases hs : Irata.actionSteps action with
      | nil => exact absurd hs hsteps
      | cons l steps => exact List.cons_ne_nil _ _
    split
    · exact List.append_ne_nil_of_right_ne_nil _ hincrement
    · exact List.append_ne_nil_of_right_ne_nil _ hsteps

/-- A tick of the fetch, under whatever opcode the instruction register still holds. -/
theorem tick_fetch {cpu : Cpu} (hload : cpu.Loaded Irata.program) (hh : cpu.halted = false)
    (hir : ∃ i ∈ Isa.instructions, cpu.irValue = i.opcode) {k : Nat} {l : List Control}
    (hk : fetchSteps[k]? = some l) (hsc : cpu.controller.sc = BitVec.ofNat 8 k) {d : Datapath}
    (hd : cpu.datapath.step (Datapath.on l) = .ok d) :
    tick cpu = .ok () (cpu.afterMicrostep l false d) ∧
      cpu.accesses = Datapath.accessesAt l cpu.datapath.mar ∧
      (cpu.afterMicrostep l false d).Loaded Irata.program ∧
      (cpu.afterMicrostep l false d).halted = false ∧
      (cpu.afterMicrostep l false d).controller.sc = BitVec.ofNat 8 (k + 1) := by
  rcases hir with ⟨i, hi, hop⟩
  rcases List.getElem?_eq_some_iff.mp hk with ⟨hlt, hget⟩
  have hnat : cpu.controller.sc.toNat = k := by
    have hthree : k < 3 := hlt
    rw [hsc, BitVec.toNat_ofNat]
    omega
  have hsource : ∀ e ∈ l, e.owner ≠ .sc ∧ e ≠ .halt ∧ e ≠ .crash := by
    have hall : ∀ l ∈ fetchSteps, ∀ e ∈ l, e.owner ≠ .sc ∧ e ≠ .halt ∧ e ≠ .crash := by
      decide
    exact hall l (List.mem_of_getElem? hk)
  have hdrop : (fetchSteps ++ bodyOn i cpu.datapath.status).drop cpu.controller.sc.toNat =
      l :: (fetchSteps.drop (k + 1) ++ bodyOn i cpu.datapath.status) := by
    rw [hnat, List.drop_append_of_le_length hlt.le, List.drop_eq_getElem_cons hlt, hget]
    rfl
  have hlast : (fetchSteps.drop (k + 1) ++ bodyOn i cpu.datapath.status).isEmpty = false :=
    List.isEmpty_eq_false_iff.mpr (List.append_ne_nil_of_right_ne_nil _ (body_ne_nil _ _))
  have hat := atSteps_of_irValue hi hop hdrop
  have htick := tick_of_atSteps Irata.accepts_instructionSet Irata.compile_instructionSet hload hh
    hat hd
  rw [hlast] at htick
  refine ⟨htick, accesses_of_atSteps Irata.accepts_instructionSet Irata.compile_instructionSet
    hload hh hat, loaded_afterMicrostep hload, ?_, ?_⟩
  · rw [halted_afterMicrostep, hh, decide_eq_false fun h => (hsource _ h).2.1 rfl,
      decide_eq_false fun h => (hsource _ h).2.2 rfl]
    rfl
  · rw [sc_afterMicrostep fun e he => (hsource e he).1, hsc]
    show BitVec.ofNat 8 k + 1#8 = _
    rw [← BitVec.ofNat_add]

/-- The datapath after the fetch. -/
def fetched (d : Datapath) : Datapath :=
  { d with
    mar := d.pc
    ir := d.memory.byteAt d.pc
    pc := d.pc + 1
    memory := d.memory.afterRead d.pc }

/-- The state after the fetch. -/
structure Fetched (cpu cpu' : Cpu) : Prop where
  loaded : cpu'.Loaded Irata.program
  halted : cpu'.halted = false
  sc : cpu'.controller.sc = 3
  injectInterrupt : cpu'.controller.injectInterrupt = cpu.takesInterrupt
  datapath : cpu'.datapath = fetched cpu.datapath

/-- The first tick of an instruction latches the interrupt, the second one reads the opcode, and
the third one steps over it. -/
theorem exists_fetched {cpu : Cpu} (hb : cpu.AtBoundary)
    (hnext : ∃ i ∈ Isa.instructions, cpu.nextOpcode = i.opcode) :
    ∃ cpu₁ cpu₂ cpu₃, tick cpu = .ok () cpu₁ ∧ cpu₁.controller.sc = 1 ∧
      tick cpu₁ = .ok () cpu₂ ∧ cpu₂.controller.sc = 2 ∧
      tick cpu₂ = .ok () cpu₃ ∧ Fetched cpu cpu₃ ∧
      accessLog 3 cpu = [.read cpu.datapath.pc] := by
  -- the instruction starts under the opcode of the one before
  rcases tick_fetch hb.loaded hb.halted (exists_irValue hb.ir) (k := 0) rfl hb.sc
    (Microstep.step_fetchStart cpu.datapath) with ⟨htick₁, hlog₁, hload₁, hh₁, hsc₁⟩
  have hinject₁ := @injectInterrupt_afterMicrostep cpu
    [pc.write, mar.read, instructionStart] false { cpu.datapath with mar := cpu.datapath.pc }
    (by decide)
  rw [if_neg (by decide), if_pos (by decide)] at hinject₁
  have hd₁ : (cpu.afterMicrostep [pc.write, mar.read, instructionStart] false
      { cpu.datapath with mar := cpu.datapath.pc }).datapath =
      { cpu.datapath with mar := cpu.datapath.pc } := rfl
  generalize cpu.afterMicrostep _ _ _ = cpu₁ at htick₁ hload₁ hh₁ hsc₁ hinject₁ hd₁
  have hir₁ : ∃ i ∈ Isa.instructions, cpu₁.datapath.ir = i.opcode := by
    rw [hd₁]
    exact hb.ir
  -- the latch decides whether the opcode that is read has any effect
  rcases tick_fetch hload₁ hh₁ (exists_irValue hir₁) (k := 1) rfl hsc₁
    (Microstep.step_fetchOpcode cpu₁.datapath) with ⟨htick₂, hlog₂, hload₂, hh₂, hsc₂⟩
  have hinject₂ := @injectInterrupt_afterMicrostep cpu₁ [memoryWrite, ir.read] false
    { cpu₁.datapath with
      ir := cpu₁.datapath.memory.byteAt cpu₁.datapath.mar
      memory := cpu₁.datapath.memory.afterRead cpu₁.datapath.mar } (by decide)
  rw [if_neg (by decide), if_neg (by decide), hinject₁] at hinject₂
  have hd₂ : (cpu₁.afterMicrostep [memoryWrite, ir.read] false
      { cpu₁.datapath with
        ir := cpu₁.datapath.memory.byteAt cpu₁.datapath.mar
        memory := cpu₁.datapath.memory.afterRead cpu₁.datapath.mar }).datapath =
      { cpu₁.datapath with
        ir := cpu₁.datapath.memory.byteAt cpu₁.datapath.mar
        memory := cpu₁.datapath.memory.afterRead cpu₁.datapath.mar } := rfl
  generalize cpu₁.afterMicrostep _ _ _ = cpu₂ at htick₂ hload₂ hh₂ hsc₂ hinject₂ hd₂
  have hir₂ : ∃ i ∈ Isa.instructions, cpu₂.irValue = i.opcode := by
    have hvalue : cpu₂.irValue = cpu.nextOpcode := by
      unfold irValue nextOpcode
      rw [hinject₂, hd₂, hd₁]
      rfl
    rw [hvalue]
    exact hnext
  rcases tick_fetch hload₂ hh₂ hir₂ (k := 2) rfl hsc₂
    (Microstep.step_pcIncrement cpu₂.datapath) with ⟨htick₃, hlog₃, hload₃, hh₃, hsc₃⟩
  have hinject₃ := @injectInterrupt_afterMicrostep cpu₂ [pcIncrement] false
    { cpu₂.datapath with pc := cpu₂.datapath.pc + 1 } (by decide)
  rw [if_neg (by decide), if_neg (by decide), hinject₂] at hinject₃
  have hd₃ : (cpu₂.afterMicrostep [pcIncrement] false
      { cpu₂.datapath with pc := cpu₂.datapath.pc + 1 }).datapath = fetched cpu.datapath := by
    show { cpu₂.datapath with pc := cpu₂.datapath.pc + 1 } = fetched cpu.datapath
    rw [hd₂, hd₁]
    rfl
  refine ⟨cpu₁, cpu₂, _, htick₁, hsc₁, htick₂, hsc₂, htick₃,
    ⟨hload₃, hh₃, hsc₃, hinject₃, hd₃⟩, ?_⟩
  rw [accessLog_succ htick₁, accessLog_succ htick₂, accessLog_succ htick₃, hlog₁, hlog₂, hlog₃,
    hd₁]
  rfl

/-! ## The body -/

/-- The actions that stop the CPU. -/
def stops : Isa.Action → Bool
  | .halt | .crash => true
  | _ => false

theorem actionOn_mem (i : InstructionInfo) (status : Byte) :
    actionOn i status ∈ [i.mnemonic.action i.addressingMode, i.mnemonic.otherwise] := by
  unfold actionOn
  cases i.mnemonic.condition with
  | none => exact List.mem_cons_self
  | some c =>
      show (if _ then _ else _) ∈ _
      split
      · exact List.mem_cons_self
      · exact List.mem_cons_of_mem _ List.mem_cons_self

theorem isPlain_bodyOn {i : InstructionInfo} (hi : i ∈ Isa.instructions) {status : Byte}
    (h : stops (actionOn i status) = false) : ∀ l ∈ bodyOn i status, isPlain l = true := by
  have hall : ∀ i ∈ Isa.instructions,
      ∀ action ∈ [i.mnemonic.action i.addressingMode, i.mnemonic.otherwise],
      stops action = false → ∀ l ∈ body i.addressingMode action, isPlain l = true := by
    decide +kernel
  exact hall i hi _ (actionOn_mem i status) h

theorem bodyOn_of_stops {i : InstructionInfo} (hi : i ∈ Isa.instructions) {status : Byte}
    (h : stops (actionOn i status) = true) :
    bodyOn i status = [[.halt]] ∨ bodyOn i status = [[.crash]] := by
  have hall : ∀ i ∈ Isa.instructions,
      ∀ action ∈ [i.mnemonic.action i.addressingMode, i.mnemonic.otherwise],
      stops action = true →
        body i.addressingMode action = [[.halt]] ∨ body i.addressingMode action = [[.crash]] := by
    decide +kernel
  exact hall i hi _ (actionOn_mem i status) h

/-- Only the instructions without a condition change the status register. -/
theorem keepsVariant_bodyOn {i : InstructionInfo} (hi : i ∈ Isa.instructions) (status : Byte) :
    KeepsVariant (variantOn i status) (bodyOn i status) := by
  have hall : ∀ i ∈ Isa.instructions, i.mnemonic.condition ≠ none →
      ∀ action ∈ [i.mnemonic.action i.addressingMode, i.mnemonic.otherwise],
      ∀ l ∈ body i.addressingMode action, l.any Datapath.changesStatus = false := by
    decide +kernel
  cases hc : i.mnemonic.condition with
  | none =>
      left
      unfold variantOn
      rw [hc]
  | some c =>
      right
      exact hall i hi (by rw [hc]; exact Option.some_ne_none c) _ (actionOn_mem i status)

/-! ## One instruction -/

/-- The number of ticks of an instruction under a status. -/
def duration (i : InstructionInfo) (status : Byte) : Nat := 3 + (bodyOn i status).length

/-- The state after an instruction. -/
structure Finished (i : InstructionInfo) (cpu cpu' : Cpu) : Prop where
  loaded : cpu'.Loaded Irata.program
  halted : cpu'.halted = stops (actionOn i cpu.datapath.status)
  sc : cpu'.controller.sc = 0
  injectInterrupt : cpu'.controller.injectInterrupt = cpu.takesInterrupt
  ir : cpu'.datapath.ir = cpu.datapath.memory.byteAt cpu.datapath.pc

/-- Ticks that finish an instruction with the given registers and memory, or throw the given
error. -/
def Yields (i : InstructionInfo) (cpu : Cpu) :
    Except SimError Arch → EStateM.Result SimError Cpu Unit → Prop
  | .ok s, result => ∃ cpu', result = .ok () cpu' ∧ cpu'.datapath.arch = s ∧ Finished i cpu cpu'
  | .error e, result => ∃ cpu', result = .error e cpu'

section Body

variable {cpu cpu' : Cpu} (hf : Fetched cpu cpu') {i : InstructionInfo}
  (hi : i ∈ Isa.instructions) (hnext : cpu.nextOpcode = i.opcode)

include hf hi hnext

theorem atSteps_of_fetched :
    AtSteps Irata.instructionSet (Irata.implementation i) (variantOn i cpu.datapath.status)
      (bodyOn i cpu.datapath.status) cpu' := by
  have hir : cpu'.irValue = i.opcode := by
    rw [← hnext]
    unfold irValue nextOpcode
    rw [hf.injectInterrupt, hf.datapath]
    rfl
  have hstatus : cpu'.datapath.status = cpu.datapath.status := by
    rw [hf.datapath]
    rfl
  rw [← hstatus]
  apply atSteps_of_irValue hi hir
  rw [hf.sc]
  rfl

/-- Some of the ticks of a body that does not stop the CPU. -/
theorem ticks_body (hstop : stops (actionOn i cpu.datapath.status) = false)
    {steps rest : List (List Control)} (hbody : steps ++ rest = bodyOn i cpu.datapath.status)
    (hne : steps ≠ []) {log : List Access} {r : Except SimError Datapath}
    (hruns : Datapath.Runs steps cpu'.datapath log r) :
    accessLog steps.length cpu' = log ∧
      EndsIn (Reaches Irata.program Irata.instructionSet (Irata.implementation i)
        (variantOn i cpu.datapath.status) steps rest cpu') r (ticks steps.length cpu') := by
  have hmem : ∀ l ∈ steps, l ∈ bodyOn i cpu.datapath.status := fun l hl =>
    hbody ▸ List.mem_append_left rest hl
  have hat := atSteps_of_fetched hf hi hnext
  rw [← hbody] at hat
  exact ticks_of_runs Irata.accepts_instructionSet Irata.compile_instructionSet hne hf.loaded
    hf.halted hat (fun l hl => isPlain_bodyOn hi hstop l (hmem l hl))
    ((keepsVariant_bodyOn hi _).imp_right fun h l hl => h l (hmem l hl)) hruns

/-- The step counter does not return before the last tick of the body. -/
theorem sc_inside_body {m : Nat} (hm : m < (bodyOn i cpu.datapath.status).length) {t : Cpu}
    (ht : ticks m cpu' = .ok () t) : t.controller.sc ≠ 0 := by
  cases m with
  | zero =>
      cases ht
      rw [hf.sc]
      decide
  | succ m =>
      have hstop : stops (actionOn i cpu.datapath.status) = false := by
        by_contra hstop
        rw [Bool.not_eq_false] at hstop
        rcases bodyOn_of_stops hi hstop with hbody | hbody <;>
          rw [hbody] at hm <;> exact absurd hm (by simp)
      generalize hbody : bodyOn i cpu.datapath.status = steps at hm
      have hlength : (steps.take (m + 1)).length = m + 1 := List.length_take_of_le hm.le
      have hne : steps.take (m + 1) ≠ [] :=
        List.ne_nil_of_length_pos (by rw [hlength]; exact m.succ_pos)
      have hdrop : steps.drop (m + 1) ≠ [] :=
        List.ne_nil_of_length_pos (by rw [List.length_drop]; omega)
      rcases ticks_body hf hi hnext hstop ((List.take_append_drop (m + 1) steps).trans hbody.symm)
        hne ⟨rfl, rfl⟩ with ⟨-, hend⟩
      rw [hlength, ht] at hend
      cases hrun : Datapath.run (steps.take (m + 1)) cpu'.datapath with
      | error e =>
          rw [hrun] at hend
          rcases hend with ⟨t', ht'⟩
          cases ht'
      | ok d =>
          rw [hrun] at hend
          rcases hend with ⟨t', ht', -, hreach⟩
          cases ht'
          intro hzero
          have hsc := hreach.sc
          rw [if_neg hdrop, hzero, hf.sc] at hsc
          change 0 = 3 + _ at hsc
          omega

/-- The body of an instruction that stops the CPU. -/
theorem yields_stop {e : Control} (hbody : bodyOn i cpu.datapath.status = [[e]])
    (he : e = .halt ∨ e = .crash) (hstop : stops (actionOn i cpu.datapath.status) = true)
    {log : List Access} {r : Except SimError Datapath}
    (hruns : Datapath.Runs (bodyOn i cpu.datapath.status) cpu'.datapath log r) :
    accessLog (bodyOn i cpu.datapath.status).length cpu' = log ∧
      Yields i cpu (r.map Datapath.arch)
        (ticks (bodyOn i cpu.datapath.status).length cpu') := by
  have hstep : cpu'.datapath.step (Datapath.on [e]) = .ok cpu'.datapath := by
    rcases he with rfl | rfl
    · exact Microstep.step_halt _
    · exact Microstep.step_crash _
  have howner : ∀ c ∈ [e], c.owner ≠ .sc := by
    rcases he with rfl | rfl <;> decide
  have hplain : Control.irqLine ∉ [e] ∧ ByteRegister.ir.reset ∉ [e] ∧
      Control.instructionStart ∉ [e] := by
    rcases he with rfl | rfl <;> decide
  have hhalted : (decide (Control.halt ∈ [e]) || decide (Control.crash ∈ [e])) = true := by
    rcases he with rfl | rfl <;> rfl
  have hat := atSteps_of_fetched hf hi hnext
  rw [hbody] at hat hruns ⊢
  -- one tick of the body, which halts the CPU and does nothing else
  have htick := tick_of_atSteps Irata.accepts_instructionSet Irata.compile_instructionSet hf.loaded
    hf.halted hat hstep
  have hlog := accesses_of_atSteps Irata.accepts_instructionSet Irata.compile_instructionSet
    hf.loaded hf.halted hat
  rcases hruns with ⟨rfl, rfl⟩
  refine ⟨?_, ?_⟩
  · show accessLog 1 cpu' = _
    rw [accessLog_succ htick, hlog, Datapath.Runs.trace_cons hstep]
    rfl
  · rw [Datapath.run_cons hstep]
    refine ⟨_, bind_of_ok htick, rfl, loaded_afterMicrostep hf.loaded, ?_, ?_, ?_, ?_⟩
    · rw [halted_afterMicrostep, hf.halted, hstop, Bool.false_or]
      exact hhalted
    · exact sc_afterMicrostep howner
    · rw [injectInterrupt_afterMicrostep hplain.1, if_neg hplain.2.1, if_neg hplain.2.2]
      exact hf.injectInterrupt
    · show cpu'.datapath.ir = _
      rw [hf.datapath]
      rfl

/-- The body does what the architecture says. -/
theorem yields_body (hram : cpu.datapath.memory.LowRam) :
    accessLog (bodyOn i cpu.datapath.status).length cpu' =
        (cpu.datapath.arch.operand i).reads.map .read ++
          Action.accesses (cpu.datapath.arch.operand i).address cpu.datapath.sp
            (actionOn i cpu.datapath.status) ∧
      Yields i cpu (cpu.datapath.arch.execute i)
        (ticks (bodyOn i cpu.datapath.status).length cpu') := by
  have hfetched : cpu'.datapath.memory.LowRam := by
    rw [hf.datapath]
    exact Memory.lowRam_afterRead hram _
  have harch : cpu'.datapath.arch = cpu.datapath.arch.next := by
    rw [hf.datapath]
    rfl
  have hsp : cpu'.datapath.sp = cpu.datapath.sp := congrArg Arch.sp harch
  have hir : cpu'.datapath.ir = cpu.datapath.memory.byteAt cpu.datapath.pc := by
    rw [hf.datapath]
    rfl
  rcases Bodies.performs_body (Bodies.fits_actionOn hi cpu.datapath.status) cpu'.datapath hfetched
    with ⟨r, hruns, hresult⟩
  rw [harch, hsp] at hruns
  rw [harch] at hresult
  change Except.map Datapath.arch r = cpu.datapath.arch.execute i at hresult
  rw [← hresult]
  cases hstop : stops (actionOn i cpu.datapath.status) with
  | false =>
      rcases ticks_body hf hi hnext hstop (List.append_nil _) (body_ne_nil _ _) hruns
        with ⟨hlog, hend⟩
      refine ⟨hlog, ?_⟩
      cases r with
      | error e => exact hend
      | ok d =>
          rcases hend with ⟨t, ht, rfl, hreach⟩
          refine ⟨t, ht, rfl, hreach.loaded, hreach.halted.trans hstop.symm, ?_,
            hreach.injectInterrupt.trans hf.injectInterrupt, hreach.ir.trans hir⟩
          exact BitVec.eq_of_toNat_eq (hreach.sc.trans (if_pos rfl))
  | true =>
      -- the step that stops the CPU leaves the datapath alone
      rcases bodyOn_of_stops hi hstop with hbody | hbody
      · exact yields_stop hf hi hnext hbody (.inl rfl) hstop hruns
      · exact yields_stop hf hi hnext hbody (.inr rfl) hstop hruns

end Body

/-- A CPU at a boundary executes the next instruction as the architecture says, with the accesses
of the architecture, and only its last tick returns the step counter to zero. -/
theorem executes {cpu : Cpu} (hb : cpu.AtBoundary) {i : InstructionInfo}
    (hi : i ∈ Isa.instructions) (hnext : cpu.nextOpcode = i.opcode) :
    accessLog (duration i cpu.datapath.status) cpu = cpu.datapath.arch.accesses i ∧
      Yields i cpu (cpu.datapath.arch.execute i)
        (ticks (duration i cpu.datapath.status) cpu) ∧
      ∀ m t, 0 < m → m < duration i cpu.datapath.status → ticks m cpu = .ok () t →
        t.controller.sc ≠ 0 := by
  rcases exists_fetched hb ⟨i, hi, hnext⟩ with
    ⟨cpu₁, cpu₂, cpu₃, htick₁, hsc₁, htick₂, hsc₂, htick₃, hf, hlog⟩
  have hfetch : ticks 3 cpu = .ok () cpu₃ := by
    rw [ticks_succ htick₁, ticks_succ htick₂, ticks_succ htick₃]
    rfl
  rcases yields_body hf hi hnext hb.lowRam with ⟨hbody, hyields⟩
  unfold duration
  refine ⟨?_, ?_, fun m t hpos hm ht => ?_⟩
  · rw [accessLog_add hfetch, hlog, hbody]
    rfl
  · rw [ticks_add hfetch]
    exact hyields
  · by_cases hthree : 3 ≤ m
    · obtain ⟨k, rfl⟩ := Nat.exists_eq_add_of_le hthree
      rw [ticks_add hfetch] at ht
      exact sc_inside_body hf hi hnext (by omega) ht
    · -- the ticks of the fetch count up
      have hcases : m = 1 ∨ m = 2 := by omega
      rcases hcases with rfl | rfl
      · rw [ticks_succ htick₁] at ht
        cases ht
        rw [hsc₁]
        decide
      · rw [ticks_succ htick₁, ticks_succ htick₂] at ht
        cases ht
        rw [hsc₂]
        decide

end Cpu

end Irata2.Sim
