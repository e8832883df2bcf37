import Irata2.Sim.Instruction

/-!
# What an instruction changes

The program counter, the flags, the registers and the memory after an instruction that no
interrupt has pre-empted.  Each result is about the architecture first, and about the ticks of the
CPU by way of it.
-/

namespace Irata2.Isa

/-- The functions that move the carry. -/
def Unary.isShift : Unary → Bool
  | .increment | .decrement => false
  | _ => true

def StatusFlag.bit : StatusFlag → Hdl.StatusBit
  | .zero => .zero
  | .negative => .negative
  | .carry => .carry
  | .overflow => .overflow

end Irata2.Isa

namespace Irata2.Sim

open Hdl Isa Library Library.StateRun Microcode

/-! ## Instructions that fail -/

/-- Only a store to the memory fails. -/
theorem Arch.exec_error {s : Arch} {address : Word} {action : Isa.Action} {e : SimError}
    (h : s.exec address action = .error e) : e.IsMemoryWrite := by
  cases action with
  | store r =>
      change (s.memory.writeAt address (s.reg r)).map _ = _ at h
      cases hw : s.memory.writeAt address (s.reg r) with
      | ok m =>
          rw [hw] at h
          cases h
      | error e' =>
          rw [hw] at h
          cases h
          exact Memory.writeAt_error hw
  | modifyMemory f =>
      change ((s.memory.afterRead address).writeAt address
        (f.value (s.look address) (Status.value .carry s.status))).map _ = _ at h
      cases hw : (s.memory.afterRead address).writeAt address
        (f.value (s.look address) (Status.value .carry s.status)) with
      | ok m =>
          rw [hw] at h
          cases h
      | error e' =>
          rw [hw] at h
          cases h
          exact Memory.writeAt_error hw
  | _ => cases h

/-- A tick of the instruction throws the error of a memory write. -/
def Cpu.ThrowsInStore (cpu : Cpu) : Prop :=
  ∃ n e t, Cpu.OneInstruction n cpu ∧ Cpu.ticks n cpu = .error e t ∧ e.IsMemoryWrite

/-- An instruction executes as the architecture says, or one of its stores throws. -/
theorem Cpu.executes_or_throws {cpu : Cpu} (hb : cpu.AtBoundary) {i : InstructionInfo}
    (hi : i ∈ Isa.instructions) (hnext : cpu.nextOpcode = i.opcode) :
    (∃ cpu', Cpu.Executes cpu cpu' ∧ cpu.datapath.arch.execute i = .ok cpu'.datapath.arch ∧
      Cpu.Finished i cpu cpu') ∨ cpu.ThrowsInStore := by
  cases hexec : cpu.datapath.arch.execute i with
  | ok s =>
      left
      rcases Cpu.exists_executes hb hi hnext hexec with ⟨cpu', h, rfl, hfinished⟩
      exact ⟨cpu', h, rfl, hfinished⟩
  | error e =>
      right
      have hyields := (Cpu.executes hb hi hnext).2.1
      rw [hexec] at hyields
      rcases hyields with ⟨t, ht⟩
      exact ⟨_, e, t, Cpu.oneInstruction hb hi hnext, ht, Arch.exec_error hexec⟩

theorem Cpu.nextOpcode_of_not_taken {cpu : Cpu} (hirq : cpu.takesInterrupt = false) :
    cpu.nextOpcode = cpu.datapath.memory.byteAt cpu.datapath.pc := by
  unfold Cpu.nextOpcode
  rw [hirq]
  rfl

namespace Arch

/-! ## The program counter -/

/-- The actions that load or move the program counter. -/
def transfers : Isa.Action → Bool
  | .branch | .jump | .jumpIndirect | .call | .ret | .brk | .irq | .rti => true
  | _ => false

/-- The addressing mode steps over its operand bytes. -/
theorem locate_pc (s : Arch) (mode : AddressingMode) :
    (s.locate mode).arch.pc = s.pc + BitVec.ofNat 16 mode.operands := by
  have htwo : s.pc + 1 + 1 = s.pc + BitVec.ofNat 16 2 := BitVec.add_assoc _ _ _
  cases mode with
  | imp => exact (BitVec.add_zero _).symm
  | abs | ind | abx | aby => exact htwo
  | _ => rfl

theorem pc_setReg (s : Arch) (r : Isa.Register) (v : Byte) : (s.setReg r v).pc = s.pc := by
  cases r <;> rfl

theorem pc_exec {s s' : Arch} {address : Word} {action : Isa.Action}
    (h : transfers action = false) (hexec : s.exec address action = .ok s') : s'.pc = s.pc := by
  cases action with
  | store r =>
      change (s.memory.writeAt address (s.reg r)).map _ = _ at hexec
      cases hw : s.memory.writeAt address (s.reg r) with
      | ok m =>
          rw [hw] at hexec
          cases hexec
          rfl
      | error e =>
          rw [hw] at hexec
          cases hexec
  | modifyMemory f =>
      change ((s.memory.afterRead address).writeAt address
        (f.value (s.look address) (Status.value .carry s.status))).map _ = _ at hexec
      cases hw : (s.memory.afterRead address).writeAt address
        (f.value (s.look address) (Status.value .carry s.status)) with
      | ok m =>
          rw [hw] at hexec
          cases hexec
          rfl
      | error e =>
          rw [hw] at hexec
          cases hexec
  | load r | modify r f | transfer source target =>
      cases hexec
      exact pc_setReg _ _ _
  | branch | jump | jumpIndirect | call | ret | brk | irq | rti => cases h
  | _ =>
      cases hexec
      rfl

theorem pc_execute {s s' : Arch} {i : InstructionInfo}
    (h : transfers (actionOn i s.status) = false) (hexec : s.execute i = .ok s') :
    s'.pc = s.pc + BitVec.ofNat 16 (1 + i.addressingMode.operands) := by
  have hlocate : (s.operand i).arch.pc = s.pc + 1 + BitVec.ofNat 16 i.addressingMode.operands :=
    locate_pc s.next i.addressingMode
  rw [pc_exec h hexec, hlocate, BitVec.ofNat_add, BitVec.add_assoc]
  rfl

end Arch

namespace Cpu

/-- An instruction that does not transfer control advances the program counter over itself, unless
one of its stores throws. -/
theorem pc_advances {cpu : Cpu} (hb : cpu.AtBoundary) (hirq : cpu.takesInterrupt = false)
    {i : InstructionInfo} (hi : i ∈ Isa.instructions)
    (hop : cpu.datapath.memory.byteAt cpu.datapath.pc = i.opcode)
    (hstay : Arch.transfers (actionOn i cpu.datapath.status) = false) :
    (∃ cpu', Executes cpu cpu' ∧ cpu'.controller.sc = 0 ∧
      cpu'.datapath.pc = cpu.datapath.pc + BitVec.ofNat 16 (1 + i.addressingMode.operands)) ∨
      cpu.ThrowsInStore := by
  have hnext := (nextOpcode_of_not_taken hirq).trans hop
  rcases executes_or_throws hb hi hnext with ⟨cpu', hexec, harch, hfinished⟩ | hthrows
  · left
    exact ⟨cpu', hexec, hfinished.sc, Arch.pc_execute hstay harch⟩
  · right
    exact hthrows

/-- A CPU at the start of a program in RAM, with the given status. -/
def programStart (bytes : List Byte) (status : Byte) (m : InstructionMemory) : Cpu :=
  start { imageDatapath bytes with status := status } m

theorem atBoundary_programStart {m : InstructionMemory}
    (hm : InstructionMemory.new cpuControls Irata.program = .ok m) (bytes : List Byte)
    (status : Byte) : (programStart bytes status m).AtBoundary :=
  atBoundary_start hm exists_nop Memory.lowRam_of_head

theorem takesInterrupt_programStart (bytes : List Byte) (status : Byte) (m : InstructionMemory) :
    (programStart bytes status m).takesInterrupt = false :=
  takesInterrupt_of_memory rfl rfl

theorem opcode_programStart (opcode : Byte) (bytes : List Byte) (status : Byte)
    (m : InstructionMemory) :
    (programStart (opcode :: bytes) status m).datapath.memory.byteAt
      (programStart (opcode :: bytes) status m).datapath.pc = opcode :=
  Memory.byteAt_image (b := 0) _ (by decide)

theorem arch_programStart (bytes : List Byte) (status : Byte) (m : InstructionMemory) :
    (programStart bytes status m).datapath.arch =
      { (imageDatapath bytes).arch with status := status } := rfl

theorem nextOpcode_programStart (opcode : Byte) (bytes : List Byte) (status : Byte)
    (m : InstructionMemory) : (programStart (opcode :: bytes) status m).nextOpcode = opcode :=
  (nextOpcode_of_not_taken (takesInterrupt_programStart _ _ _)).trans
    (opcode_programStart opcode bytes status m)

theorem run_of_ticks {n : Nat} {cpu cpu' : Cpu} (h : ticks n cpu = .ok () cpu') :
    Run cpu cpu' := by
  induction n generalizing cpu with
  | zero =>
      cases h
      exact .refl
  | succ n ih =>
      change (tick >>= fun _ => ticks n) cpu = _ at h
      cases ht : tick cpu with
      | ok u t =>
          rw [bind_of_ok ht] at h
          exact .head (.tick ht) (ih h)
      | error e t =>
          rw [bind_of_error ht] at h
          cases h

theorem Executes.run {cpu cpu' : Cpu} (h : Executes cpu cpu') : Run cpu cpu' := by
  obtain ⟨n, hticks, -⟩ := h
  exact run_of_ticks hticks

/-- An instruction boundary at which interrupts are disabled. -/
structure Undisturbed (cpu : Cpu) : Prop where
  boundary : cpu.AtBoundary
  disabled : Status.value .interruptDisable cpu.datapath.status = true

theorem Undisturbed.notTaken {cpu : Cpu} (h : cpu.Undisturbed) : cpu.takesInterrupt = false := by
  unfold takesInterrupt
  rw [h.disabled]
  exact Bool.and_false _

/-- The next instruction of a program runs, and the one behind it is not pre-empted either. -/
theorem Undisturbed.exists_executes {cpu : Cpu} (h : cpu.Undisturbed) {i : InstructionInfo}
    (hi : i ∈ Isa.instructions)
    (hop : cpu.datapath.memory.byteAt cpu.datapath.pc = i.opcode)
    (hstop : stops (actionOn i cpu.datapath.status) = false) {s : Arch}
    (hexec : cpu.datapath.arch.execute i = .ok s)
    (hdisabled : Status.value .interruptDisable s.status = true) :
    ∃ cpu', Executes cpu cpu' ∧ cpu'.datapath.arch = s ∧ cpu'.Undisturbed := by
  have hnext := (nextOpcode_of_not_taken h.notTaken).trans hop
  obtain ⟨cpu', hexecutes, rfl, -⟩ := Cpu.exists_executes h.boundary hi hnext hexec
  exact ⟨cpu', hexecutes, rfl,
    atBoundary_of_executes h.boundary hi hnext h.notTaken hstop hexecutes, hdisabled⟩

/-- A program in RAM that starts with interrupts disabled. -/
theorem undisturbed_start {m : InstructionMemory}
    (hm : InstructionMemory.new cpuControls Irata.program = .ok m) {d : Datapath}
    {bytes : List Byte} (hir : d.ir = 0x02) (hmemory : d.memory = Memory.image bytes)
    (hdisabled : Status.value .interruptDisable d.status = true) : (start d m).Undisturbed := by
  refine ⟨atBoundary_start hm (hir ▸ exists_nop) ?_, hdisabled⟩
  rw [hmemory]
  exact Memory.lowRam_of_head

def staAbsolute : InstructionInfo := ⟨.sta, 0x51, .abs, []⟩

/-- A store to ROM throws before the step counter returns; and over a stale opcode without
microcode the program counter never moves on. -/
theorem not_pc_advances :
    (∃ cpu : Cpu, cpu.AtBoundary ∧ cpu.takesInterrupt = false ∧
      cpu.datapath.memory.byteAt cpu.datapath.pc = staAbsolute.opcode ∧
      Arch.transfers (actionOn staAbsolute cpu.datapath.status) = false ∧
      ∀ cpu', ¬Executes cpu cpu') ∧
    ∃ cpu : Cpu, cpu.Loaded Irata.program ∧ cpu.halted = false ∧ cpu.controller.sc = 0 ∧
      cpu.datapath.memory.LowRam ∧ cpu.takesInterrupt = false ∧
      cpu.datapath.memory.byteAt cpu.datapath.pc = 0x02 ∧ ∀ cpu', ¬Executes cpu cpu' := by
  rcases exists_instructionMemory with ⟨m, hm⟩
  have hsta : staAbsolute ∈ Isa.instructions := by decide
  have hb := atBoundary_programStart hm [0x51, 0x00, 0x80] 0
  have hirq := @takesInterrupt_of_memory
    (preempted { imageDatapath [0x02] with ir := 0x03 } m) [0x02] rfl rfl
  refine ⟨⟨_, hb, takesInterrupt_programStart _ _ _, opcode_programStart _ _ _ _, rfl,
    fun cpu' h => ?_⟩, preempted { imageDatapath [0x02] with ir := 0x03 } m,
    loaded_preempted hm _, rfl, rfl, Memory.lowRam_of_head, hirq,
    Memory.byteAt_image (b := 0) _ (by decide), not_executes_preempted hm rfl hirq⟩
  have hexec := (execute_of_executes hb hsta (nextOpcode_programStart _ _ _ _) h).1
  have herror : ∃ e, ({ (imageDatapath [0x51, 0x00, 0x80]).arch with status := 0 } :
      Arch).execute staAbsolute = .error e := ⟨_, rfl⟩
  rcases herror with ⟨e, herror⟩
  cases herror.symm.trans hexec

theorem pc_advances_and :
    ∃ cpu : Cpu, cpu.datapath.pc = 0 ∧
      ((∃ cpu', Executes cpu cpu' ∧ cpu'.controller.sc = 0 ∧ cpu'.datapath.pc = 2) ∨
        cpu.ThrowsInStore) := by
  rcases exists_instructionMemory with ⟨m, hm⟩
  exact ⟨_, rfl, pc_advances (i := ⟨.and, 0x22, .imm, [.zero, .negative]⟩)
    (atBoundary_programStart hm [0x22, 0x00] 0) (takesInterrupt_programStart _ _ _)
    (by decide) (opcode_programStart _ _ _ _) rfl⟩

end Cpu

namespace Arch

/-! ## The flags -/

theorem value_setFlags (s : Arch) (v : Byte) (f : StatusBit) :
    Status.value f (s.setFlags v).status =
      if f = .negative then v &&& 0x80 != 0
      else if f = .zero then v == 0
      else Status.value f s.status := by
  show Status.value f (Status.assign .negative _ (Status.assign .zero _ s.status)) = _
  rw [Status.value_assign, Status.value_assign]

theorem status_setReg (s : Arch) (r : Isa.Register) (v : Byte) :
    (s.setReg r v).status = s.status := by
  cases r <;> rfl

end Arch

/-- What a function of two operands does to the carry and the overflow, besides setting them. -/
theorem Alu.value_binary (f : Binary) (a v r status : Byte) {g : StatusBit}
    (hg : f = .subtract → g ≠ .carry) (hadd : f = .add → g ≠ .carry ∧ g ≠ .overflow) :
    Status.value g (execute f.code a v r status).status =
      if f ≠ .add ∧ f ≠ .subtract ∧ (g = .carry ∨ g = .overflow) then false
      else Status.value g status := by
  cases f with
  | add =>
      rcases hadd rfl with ⟨hc, hv⟩
      rw [if_neg fun h => h.1 rfl]
      show Status.value g (Status.assign .overflow _ (Status.assign .carry _ status)) = _
      rw [Status.value_assign, if_neg hv, Status.value_assign, if_neg hc]
  | subtract =>
      rw [if_neg fun h => h.2.1 rfl]
      show Status.value g (Status.assign .carry _ status) = _
      rw [Status.value_assign, if_neg (hg rfl)]
  | and | or | xor =>
      show Status.value g (Status.assign .overflow false (Status.assign .carry false status)) = _
      rw [Status.value_assign, Status.value_assign]
      by_cases hv : g = .overflow
      · rw [if_pos hv, if_pos ⟨by decide, by decide, .inr hv⟩]
      · by_cases hc : g = .carry
        · rw [if_neg hv, if_pos hc, if_pos ⟨by decide, by decide, .inl hc⟩]
        · rw [if_neg hv, if_neg hc, if_neg]
          rintro ⟨-, -, h | h⟩
          · exact hc h
          · exact hv h

theorem Alu.value_unary (f : Unary) (v w r status : Byte) {g : StatusBit}
    (hg : f.isShift = true → g ≠ .carry) :
    Status.value g (execute f.code v w r status).status =
      if f.isShift = true ∧ g = .overflow then false else Status.value g status := by
  cases f with
  | increment | decrement => exact (if_neg fun h => Bool.false_ne_true h.1).symm
  | shiftLeft | shiftRight | rotateLeft | rotateRight =>
      show Status.value g (Status.assign .overflow false (Status.assign .carry _ status)) = _
      rw [Status.value_assign, Status.value_assign, if_neg (hg rfl)]
      by_cases hv : g = .overflow
      · rw [if_pos hv, if_pos ⟨rfl, hv⟩]
      · rw [if_neg hv, if_neg fun h => hv h.2]

namespace Arch

/-- The status bits that an action sets to what its result says. -/
def touches : Isa.Action → StatusBit → Bool
  | .load _, f | .bit, f | .transfer _ _, f | .stackToX, f | .pullAccumulator, f =>
      f = .zero || f = .negative
  | .accumulate op, f =>
      f = .zero || f = .negative || (op = .add && (f = .carry || f = .overflow)) ||
        (op = .subtract && f = .carry)
  | .compare _, f => f = .zero || f = .negative || f = .carry
  | .modify _ op, f | .modifyMemory op, f =>
      f = .zero || f = .negative || (op.isShift && f = .carry)
  | .assign g _, f => f = g
  | .pullStatus, _ | .rti, _ => true
  | .brk, f | .irq, f => f = .interruptDisable || f = .brk
  | _, _ => false

/-- The status bits that the arithmetic unit clears besides. -/
def clears : Isa.Action → StatusBit → Bool
  | .accumulate op, f => op ≠ .add && op ≠ .subtract && (f = .carry || f = .overflow)
  | .modify _ op, f | .modifyMemory op, f => op.isShift && f = .overflow
  | _, _ => false

theorem value_result {s : Arch} {f : StatusBit} (hz : f ≠ .zero) (hn : f ≠ .negative) (v : Byte) :
    Status.value f (s.setFlags v).status = Status.value f s.status := by
  rw [value_setFlags, if_neg hn, if_neg hz]

theorem value_exec {s s' : Arch} {address : Word} {action : Isa.Action} {f : StatusBit}
    (h : touches action f = false) (hexec : s.exec address action = .ok s') :
    Status.value f s'.status =
      if clears action f = true then false else Status.value f s.status := by
  cases action with
  | load r =>
      cases hexec
      simp only [touches, Bool.or_eq_false_iff, decide_eq_false_iff_not] at h
      rw [value_result h.1 h.2, status_setReg]
      rfl
  | bit =>
      cases hexec
      simp only [touches, Bool.or_eq_false_iff, decide_eq_false_iff_not] at h
      rw [value_result h.1 h.2]
      rfl
  | transfer source target =>
      cases hexec
      simp only [touches, Bool.or_eq_false_iff, decide_eq_false_iff_not] at h
      rw [value_result h.1 h.2, status_setReg]
      rfl
  | stackToX | pullAccumulator =>
      cases hexec
      simp only [touches, Bool.or_eq_false_iff, decide_eq_false_iff_not] at h
      rw [value_result h.1 h.2]
      rfl
  | accumulate op =>
      cases hexec
      simp only [touches, Bool.or_eq_false_iff, Bool.and_eq_false_iff,
        decide_eq_false_iff_not] at h
      rcases h with ⟨⟨⟨hz, hn⟩, hadd⟩, hsub⟩
      rw [value_result hz hn, status_setReg]
      show Status.value f (Alu.execute op.code s.a (s.look address) 0 s.status).status = _
      rw [Alu.value_binary]
      · simp only [clears, Bool.and_eq_true, Bool.or_eq_true, decide_eq_true_eq, ne_eq, and_assoc]
      · exact fun hop => hsub.resolve_left fun hne => hne hop
      · exact fun hop => hadd.resolve_left fun hne => hne hop
  | compare r =>
      cases hexec
      simp only [touches, Bool.or_eq_false_iff, decide_eq_false_iff_not] at h
      rcases h with ⟨⟨hz, hn⟩, hc⟩
      rw [value_result hz hn]
      show Status.value f (Alu.execute Binary.subtract.code (s.reg r) (s.look address) 0
        (Status.assign .carry true s.status)).status = _
      rw [Alu.value_binary .subtract _ _ _ _ (fun _ => hc) (fun h => by cases h),
        if_neg fun h => h.2.1 rfl,
        Status.value_assign, if_neg hc]
      rfl
  | modify r op =>
      cases hexec
      simp only [touches, Bool.or_eq_false_iff, Bool.and_eq_false_iff,
        decide_eq_false_iff_not] at h
      rcases h with ⟨⟨hz, hn⟩, hc⟩
      rw [value_result hz hn, status_setReg]
      show Status.value f (Alu.execute op.code (s.reg r) 0 0 s.status).status = _
      rw [Alu.value_unary]
      · simp only [clears, Bool.and_eq_true, decide_eq_true_eq]
      · exact fun hop => hc.resolve_left fun hne => by rw [hop] at hne; cases hne
  | modifyMemory op =>
      change ((s.memory.afterRead address).writeAt address
        (op.value (s.look address) (Status.value .carry s.status))).map _ = _ at hexec
      simp only [touches, Bool.or_eq_false_iff, Bool.and_eq_false_iff,
        decide_eq_false_iff_not] at h
      rcases h with ⟨⟨hz, hn⟩, hc⟩
      cases hw : (s.memory.afterRead address).writeAt address
        (op.value (s.look address) (Status.value .carry s.status)) with
      | error e =>
          rw [hw] at hexec
          cases hexec
      | ok m =>
          rw [hw] at hexec
          cases hexec
          rw [value_result hz hn]
          show Status.value f (Alu.execute op.code (s.look address) 0 0 s.status).status = _
          rw [Alu.value_unary]
          · simp only [clears, Bool.and_eq_true, decide_eq_true_eq]
          · exact fun hop => hc.resolve_left fun hne => by rw [hop] at hne; cases hne
  | store r =>
      change (s.memory.writeAt address (s.reg r)).map _ = _ at hexec
      cases hw : s.memory.writeAt address (s.reg r) with
      | error e =>
          rw [hw] at hexec
          cases hexec
      | ok m =>
          rw [hw] at hexec
          cases hexec
          rfl
  | assign g v =>
      cases hexec
      show Status.value f (Status.assign g v s.status) = _
      rw [Status.value_assign, if_neg (of_decide_eq_false h)]
      rfl
  | pullStatus | rti => cases h
  | brk | irq =>
      cases hexec
      simp only [touches, Bool.or_eq_false_iff, decide_eq_false_iff_not] at h
      show Status.value f (Status.assign .brk false (Status.assign .brk _
        (Status.assign .interruptDisable true s.status))) = _
      rw [Status.value_assign, if_neg h.2, Status.value_assign, if_neg h.2, Status.value_assign,
        if_neg h.1]
      rfl
  | nop | halt | crash | xToStack | pushAccumulator | pushStatus | branch | skip | jump
  | jumpIndirect | pass | call | ret =>
      cases hexec
      rfl

theorem locate_status (s : Arch) (mode : AddressingMode) :
    (s.locate mode).arch.status = s.status := by
  cases mode <;> rfl

end Arch

/-- The flags that the arithmetic unit clears although the instruction does not list them. -/
def clearsUnlisted (m : Mnemonic) (f : StatusFlag) : Bool :=
  match m with
  | .and | .ora | .eor => f = .carry || f = .overflow
  | .asl | .lsr | .rol | .ror => f = .overflow
  | _ => false

/-- The instruction table against the actions, for the flags that an instruction does not list. -/
theorem flags_unlisted {i : InstructionInfo} (hi : i ∈ Isa.instructions) (hrti : i.mnemonic ≠ .rti)
    {f : StatusFlag} (hf : f ∉ i.flagsAffected) (status : Byte) :
    Arch.touches (actionOn i status) f.bit = false ∧
      Arch.clears (actionOn i status) f.bit = clearsUnlisted i.mnemonic f := by
  have hall : ∀ i ∈ Isa.instructions, i.mnemonic ≠ .rti →
      ∀ action ∈ [i.mnemonic.action i.addressingMode, i.mnemonic.otherwise],
      ∀ f ∈ [StatusFlag.zero, .negative, .carry, .overflow], f ∉ i.flagsAffected →
        (action = i.mnemonic.action i.addressingMode ∨ i.mnemonic.condition ≠ none) →
        Arch.touches action f.bit = false ∧
          Arch.clears action f.bit = clearsUnlisted i.mnemonic f := by
    decide +kernel
  have hmem : f ∈ [StatusFlag.zero, .negative, .carry, .overflow] := by
    cases f <;> decide
  refine hall i hi hrti _ (Cpu.actionOn_mem i status) f hmem hf ?_
  unfold actionOn
  cases i.mnemonic.condition with
  | none => exact .inl rfl
  | some c => exact .inr (Option.some_ne_none c)

/-- The status register that an instruction without a listed flag starts from. -/
theorem Arch.value_execute {s s' : Arch} {i : InstructionInfo} (hi : i ∈ Isa.instructions)
    (hrti : i.mnemonic ≠ .rti) {f : StatusFlag} (hf : f ∉ i.flagsAffected)
    (hexec : s.execute i = .ok s') :
    Status.value f.bit s'.status =
      if clearsUnlisted i.mnemonic f then false else Status.value f.bit s.status := by
  rcases flags_unlisted hi hrti hf s.status with ⟨htouches, hclears⟩
  have hlocate : (s.operand i).arch.status = s.status := locate_status s.next i.addressingMode
  rw [value_exec htouches hexec, hclears, hlocate]

/-- The status register after RTI is the byte that it pulls. -/
theorem Arch.status_rti {s s' : Arch} {i : InstructionInfo} (hi : i ∈ Isa.instructions)
    (hrti : i.mnemonic = .rti) (hexec : s.execute i = .ok s') : s'.status = s.next.top := by
  have hall : ∀ i ∈ Isa.instructions, i.mnemonic = .rti → i = ⟨.rti, 0xE6, .imp, []⟩ := by
    decide +kernel
  cases hall i hi hrti
  cases hexec
  rfl

namespace Cpu

/-- An instruction leaves every flag alone that it does not list, except that the logical
functions clear the carry and the overflow, the shifts clear the overflow, and RTI loads them all;
or one of its stores throws. -/
theorem flags_unlisted_kept {cpu : Cpu} (hb : cpu.AtBoundary) (hirq : cpu.takesInterrupt = false)
    {i : InstructionInfo} (hi : i ∈ Isa.instructions)
    (hop : cpu.datapath.memory.byteAt cpu.datapath.pc = i.opcode) {f : StatusFlag}
    (hf : f ∉ i.flagsAffected) :
    (∃ cpu', Executes cpu cpu' ∧
      Status.value f.bit cpu'.datapath.status =
        if i.mnemonic = .rti then Status.value f.bit cpu.datapath.arch.next.top
        else if clearsUnlisted i.mnemonic f then false
        else Status.value f.bit cpu.datapath.status) ∨ cpu.ThrowsInStore := by
  have hnext := (nextOpcode_of_not_taken hirq).trans hop
  rcases executes_or_throws hb hi hnext with ⟨cpu', hexec, harch, -⟩ | hthrows
  · left
    refine ⟨cpu', hexec, ?_⟩
    split
    · rename_i hrti
      exact congrArg (Status.value f.bit) (Arch.status_rti hi hrti harch)
    · rename_i hrti
      exact Arch.value_execute hi hrti hf harch
  · right
    exact hthrows

/-- AND clears a carry that it does not list, ASL an overflow, and RTI loads a zero that it does
not list. -/
theorem not_flags_unlisted_kept :
    (∃ cpu cpu' : Cpu, cpu.AtBoundary ∧ cpu.takesInterrupt = false ∧ Executes cpu cpu' ∧
      ∃ i ∈ Isa.instructions, cpu.datapath.memory.byteAt cpu.datapath.pc = i.opcode ∧
        .carry ∉ i.flagsAffected ∧ Status.value .carry cpu.datapath.status = true ∧
        Status.value .carry cpu'.datapath.status = false) ∧
    (∃ cpu cpu' : Cpu, cpu.AtBoundary ∧ cpu.takesInterrupt = false ∧ Executes cpu cpu' ∧
      ∃ i ∈ Isa.instructions, cpu.datapath.memory.byteAt cpu.datapath.pc = i.opcode ∧
        .overflow ∉ i.flagsAffected ∧ Status.value .overflow cpu.datapath.status = true ∧
        Status.value .overflow cpu'.datapath.status = false) ∧
    ∃ cpu cpu' : Cpu, cpu.AtBoundary ∧ cpu.takesInterrupt = false ∧ Executes cpu cpu' ∧
      ∃ i ∈ Isa.instructions, cpu.datapath.memory.byteAt cpu.datapath.pc = i.opcode ∧
        .zero ∉ i.flagsAffected ∧ Status.value .zero cpu.datapath.status = true ∧
        Status.value .zero cpu'.datapath.status = false := by
  rcases exists_instructionMemory with ⟨m, hm⟩
  have hand : (⟨.and, 0x22, .imm, [.zero, .negative]⟩ : InstructionInfo) ∈ Isa.instructions := by
    decide
  have hasl : (⟨.asl, 0x25, .imp, [.zero, .negative, .carry]⟩ : InstructionInfo) ∈
      Isa.instructions := by
    decide
  have hrti : (⟨.rti, 0xE6, .imp, []⟩ : InstructionInfo) ∈ Isa.instructions := by
    decide
  -- AND clears the carry, ASL the overflow, and RTI pulls a status without zero
  have h₁ : ∃ s, ({ (imageDatapath [0x22, 0x00]).arch with status := 0x01 } : Arch).execute
      ⟨.and, 0x22, .imm, [.zero, .negative]⟩ = .ok s ∧ Status.value .carry s.status = false :=
    ⟨_, rfl, rfl⟩
  have h₂ : ∃ s, ({ (imageDatapath [0x25]).arch with status := 0x40 } : Arch).execute
      ⟨.asl, 0x25, .imp, [.zero, .negative, .carry]⟩ = .ok s ∧
        Status.value .overflow s.status = false :=
    ⟨_, rfl, rfl⟩
  have h₃ : ∃ s, ({ (imageDatapath [0xE6]).arch with status := 0x02 } : Arch).execute
      ⟨.rti, 0xE6, .imp, []⟩ = .ok s ∧ Status.value .zero s.status = false :=
    ⟨_, rfl, rfl⟩
  rcases h₁ with ⟨s₁, h₁, hv₁⟩
  rcases h₂ with ⟨s₂, h₂, hv₂⟩
  rcases h₃ with ⟨s₃, h₃, hv₃⟩
  rcases exists_executes (atBoundary_programStart hm [0x22, 0x00] 0x01) hand
    (nextOpcode_programStart _ _ _ _) h₁ with ⟨t₁, hexec₁, rfl, -⟩
  rcases exists_executes (atBoundary_programStart hm [0x25] 0x40) hasl
    (nextOpcode_programStart _ _ _ _) h₂ with ⟨t₂, hexec₂, rfl, -⟩
  rcases exists_executes (atBoundary_programStart hm [0xE6] 0x02) hrti
    (nextOpcode_programStart _ _ _ _) h₃ with ⟨t₃, hexec₃, rfl, -⟩
  have hbits : Status.value .carry 0x01 = true ∧ Status.value .overflow 0x40 = true ∧
      Status.value .zero 0x02 = true := by
    decide
  exact ⟨⟨_, t₁, atBoundary_programStart hm _ _, takesInterrupt_programStart _ _ _, hexec₁, _,
    hand, opcode_programStart _ _ _ _, by decide, hbits.1, hv₁⟩,
    ⟨_, t₂, atBoundary_programStart hm _ _, takesInterrupt_programStart _ _ _, hexec₂, _, hasl,
      opcode_programStart _ _ _ _, by decide, hbits.2.1, hv₂⟩,
    ⟨_, t₃, atBoundary_programStart hm _ _, takesInterrupt_programStart _ _ _, hexec₃, _, hrti,
      opcode_programStart _ _ _ _, by decide, hbits.2.2, hv₃⟩⟩

theorem flags_unlisted_kept_and :
    ∃ cpu : Cpu, Status.value .carry cpu.datapath.status = true ∧
      ((∃ cpu', Executes cpu cpu' ∧ Status.value .carry cpu'.datapath.status = false) ∨
        cpu.ThrowsInStore) := by
  rcases exists_instructionMemory with ⟨m, hm⟩
  have hcarry : Status.value .carry 0x01 = true := by decide
  exact ⟨_, hcarry, flags_unlisted_kept (i := ⟨.and, 0x22, .imm, [.zero, .negative]⟩) (f := .carry)
    (atBoundary_programStart hm [0x22, 0x00] 0x01) (takesInterrupt_programStart _ _ _)
    (by decide) (opcode_programStart _ _ _ _) (by decide)⟩

end Cpu

end Irata2.Sim
