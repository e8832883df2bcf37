import Irata2.Library.Blocks
import Irata2.Sim.InterruptRuns

/-!
# Running until a halt

`RunUntilHalt` ticks the CPU until it halts or the cycles run out.  The interpreter of the
instruction set works on the architecture, takes the interrupts of the devices between two
instructions, and knows the cycles of every instruction: it halts exactly when the CPU does, after
the same number of ticks, for the same reason and with the same registers and memory.
-/

namespace Irata2.Sim

open Hdl Isa Library Microcode StateRun

/-- `Cpu::HaltReason` -/
inductive HaltReason
  | running
  | timeout
  | halt
  | crash
  deriving DecidableEq, Repr

/-! ## The interpreter of the instruction set -/

/-- The reason for which an action stops the CPU. -/
def stopReason : Isa.Action → Option HaltReason
  | .halt => some .halt
  | .crash => some .crash
  | _ => none

namespace Arch

/-- Whether the devices interrupt the program before its next instruction. -/
def interrupted (s : Arch) : Bool :=
  s.memory.irqLevels.getLast?.getD false && !Status.value .interruptDisable s.status

def nextOpcode (s : Arch) : Byte := if s.interrupted then kIrqOpcode else s.look s.pc

/-- One instruction, with its cycles.  There is none behind a byte that is no opcode, and none whose
store fails.  The byte is fetched, and so has to be an opcode, before an interrupt too. -/
def nextBlock (s : Arch) : Option (Blocks.Block Arch HaltReason) :=
  if Isa.instructions.any fun i => i.opcode == s.look s.pc then
    (Isa.instructions.find? fun i => i.opcode == s.nextOpcode).bind fun i =>
      (s.execute i).toOption.map fun s' =>
        ⟨Cpu.duration i s.status, stopReason (actionOn i s.status), s'⟩
  else none

/-- Runs at most `fuel` instructions.  The result is the number of cycles, the reason of the stop
and the last state. -/
def interpret (fuel : Nat) (s : Arch) : Option (Nat × HaltReason × Arch) :=
  Blocks.interpret nextBlock fuel s

end Arch

namespace Cpu

/-- The state after a tick that does not throw. -/
def tick? (cpu : Cpu) : Option Cpu :=
  match tick cpu with
  | .ok _ t => some t
  | .error _ _ => none

/-- The CPU halts for the first time after `n` ticks. -/
abbrev HaltsAfter (n : Nat) (cpu t : Cpu) : Prop := Blocks.HaltsAfter tick? (·.halted) n cpu t

/-- `RunResult::reason` of a CPU that has halted. -/
def stopped (cpu : Cpu) : HaltReason := if cpu.crashed then .crash else .halt

theorem iter_tick?_iff {n : Nat} {cpu t : Cpu} :
    Blocks.iter tick? n cpu = some t ↔ ticks n cpu = .ok () t := by
  induction n generalizing cpu with
  | zero =>
      show some cpu = some t ↔ EStateM.Result.ok () cpu = .ok () t
      rw [Option.some.injEq, EStateM.Result.ok.injEq]
      exact (and_iff_right rfl).symm
  | succ n ih =>
      show (tick? cpu).bind (Blocks.iter tick? n) = some t ↔ (tick >>= fun _ => ticks n) cpu = _
      unfold tick?
      cases ht : tick cpu with
      | ok u s =>
          rw [bind_of_ok ht]
          exact ih
      | error e s =>
          rw [bind_of_error ht]
          exact iff_of_false (fun h => by cases h) (fun h => by cases h)

theorem ticks_of_halted {cpu : Cpu} (h : cpu.halted = true) (n : Nat) :
    ticks n cpu = .ok () cpu := by
  induction n with
  | zero => rfl
  | succ n ih => rw [ticks_succ (tick_of_halted h), ih]

/-! ## Inside an instruction -/

section Boundary

variable {cpu : Cpu} (hb : cpu.AtBoundary) {i : InstructionInfo} (hi : i ∈ Isa.instructions)
  (hnext : cpu.nextOpcode = i.opcode)

include hb hi hnext

/-- An instruction halts the CPU in its last tick or not at all. -/
theorem running_inside {m : Nat} (hm : m < duration i cpu.datapath.status) {u : Cpu}
    (hu : ticks m cpu = .ok () u) : u.halted = false := by
  cases m with
  | zero =>
      cases hu
      exact hb.halted
  | succ m =>
      rw [← Bool.not_eq_true]
      intro hhalted
      -- a halted CPU keeps its step counter, and the instruction would end inside itself
      have hone := oneInstruction hb hi hnext
      obtain ⟨k, hk⟩ := Nat.exists_eq_add_of_le hm.le
      have hend : ticks (duration i cpu.datapath.status) cpu = .ok () u := by
        rw [hk, ticks_add hu, ticks_of_halted hhalted]
      exact hone.inside (m + 1) u m.succ_pos hm hu (hone.ends u hend)

/-- An instruction whose store fails does not halt the CPU. -/
theorem running_of_error {e : SimError} (hexec : cpu.datapath.arch.execute i = .error e) (n : Nat)
    {u : Cpu} (hu : ticks n cpu = .ok () u) : u.halted = false := by
  by_cases hn : n < duration i cpu.datapath.status
  · exact running_inside hb hi hnext hn hu
  · have hyields := (executes hb hi hnext).2.1
    rw [hexec] at hyields
    obtain ⟨t, ht⟩ := hyields
    obtain ⟨t', ht'⟩ := ticks_prefix hu (Nat.le_of_not_lt hn)
    rw [ht] at ht'
    cases ht'

end Boundary

/-! ## Behind a byte that is no opcode -/

/-- Under an opcode without microcode the lookup fails or finds nothing. -/
theorem lookup_of_unknown {cpu : Cpu} (hload : cpu.Loaded Irata.program)
    (hop : ∀ i ∈ Isa.instructions, i.opcode ≠ cpu.irValue) {controls : List Control}
    (hl : cpu.lookup = .ok controls) : controls = [] := by
  rcases exists_ir_of_compile Irata.compile_instructionSet with ⟨ir, hir, -, henc⟩
  cases hir.symm.trans (Compiler.optimizedIr_eq Irata.accepts_instructionSet)
  rcases InstructionMemory.lookup_eq_ok henc hload.instructionMemory hl with
    rfl | ⟨i, v, k, s, he, hopcode, -, -⟩
  · rfl
  · rcases List.mem_map.mp he.instruction with ⟨j, hj, hji⟩
    have hij : i.opcode = j.opcode := by
      rw [← hji]
    -- the source implements rows of the instruction table only
    have hrow := Irata.opcodes_perm.mem_iff.mp (List.mem_map_of_mem hj)
    rcases List.mem_map.mp hrow with ⟨row, hmem, hro⟩
    exact absurd (hro.trans (hij.symm.trans hopcode)) (hop row hmem)

/-- Under an opcode without microcode a CPU does not halt. -/
theorem running_of_unknown {cpu : Cpu} (hload : cpu.Loaded Irata.program)
    (hh : cpu.halted = false) (hop : ∀ i ∈ Isa.instructions, i.opcode ≠ cpu.irValue) (n : Nat)
    {u : Cpu} (hu : ticks n cpu = .ok () u) : u.halted = false := by
  cases hl : cpu.lookup with
  | ok controls =>
      rw [lookup_of_unknown hload hop hl] at hl
      rcases ticks_of_no_controls hload.idle hh hl n with ⟨t, ht, hht, -, -⟩
      cases hu.symm.trans ht
      exact hht
  | error e =>
      cases n with
      | zero =>
          cases hu
          exact hh
      | succ n =>
          change (tick >>= fun _ => ticks n) cpu = _ at hu
          rw [bind_of_error (tick_of_lookup_error hh hl)] at hu
          cases hu

/-- The first tick of an instruction, which latches the interrupt.  What was in effect before it
may be an injected opcode. -/
theorem exists_fetchStart {cpu : Cpu} (hload : cpu.Loaded Irata.program)
    (hh : cpu.halted = false) (hir : ∃ i ∈ Isa.instructions, cpu.irValue = i.opcode)
    (hsc : cpu.controller.sc = 0) :
    ∃ t, tick cpu = .ok () t ∧ t.Loaded Irata.program ∧ t.halted = false ∧ t.controller.sc = 1 ∧
      t.controller.injectInterrupt = cpu.takesInterrupt ∧
      t.datapath = { cpu.datapath with mar := cpu.datapath.pc } := by
  rcases tick_fetch hload hh hir (k := 0) rfl hsc (Microstep.step_fetchStart cpu.datapath) with
    ⟨htick, -, hload', hh', hsc'⟩
  have hinject := @injectInterrupt_afterMicrostep cpu
    [Hdl.WordRegister.pc.write, Hdl.WordRegister.mar.read, .instructionStart] false
    { cpu.datapath with mar := cpu.datapath.pc } (by decide)
  rw [if_neg (by decide), if_pos (by decide)] at hinject
  exact ⟨_, htick, hload', hh', hsc', hinject, rfl⟩

theorem exists_fetchOpcode {cpu : Cpu} (hload : cpu.Loaded Irata.program)
    (hh : cpu.halted = false) (hir : ∃ i ∈ Isa.instructions, cpu.irValue = i.opcode)
    (hsc : cpu.controller.sc = 1) :
    ∃ t, tick cpu = .ok () t ∧ t.Loaded Irata.program ∧ t.halted = false ∧
      t.controller.injectInterrupt = cpu.controller.injectInterrupt ∧
      t.datapath.ir = cpu.datapath.memory.byteAt cpu.datapath.mar := by
  rcases tick_fetch hload hh hir (k := 1) rfl hsc (Microstep.step_fetchOpcode cpu.datapath) with
    ⟨htick, -, hload', hh', -⟩
  have hinject := @injectInterrupt_afterMicrostep cpu
    [.memoryWrite, Hdl.ByteRegister.ir.read] false
    { cpu.datapath with
      ir := cpu.datapath.memory.byteAt cpu.datapath.mar
      memory := cpu.datapath.memory.afterRead cpu.datapath.mar } (by decide)
  rw [if_neg (by decide), if_neg (by decide)] at hinject
  exact ⟨_, htick, hload', hh', hinject, rfl⟩

/-- A run goes on behind a tick that leaves the CPU running. -/
theorem running_of_tick {cpu t : Cpu} (hh : cpu.halted = false) (ht : tick cpu = .ok () t)
    (h : ∀ n u, ticks n t = .ok () u → u.halted = false) (n : Nat) {u : Cpu}
    (hu : ticks n cpu = .ok () u) : u.halted = false := by
  cases n with
  | zero =>
      cases hu
      exact hh
  | succ n =>
      rw [ticks_succ ht] at hu
      exact h n u hu

/-- A CPU does not halt behind a byte that is no opcode. -/
theorem running_of_fetched_unknown {cpu : Cpu} (hb : cpu.AtBoundary)
    (hirq : cpu.takesInterrupt = false)
    (hop : ∀ i ∈ Isa.instructions, i.opcode ≠ cpu.datapath.memory.byteAt cpu.datapath.pc) (n : Nat)
    {u : Cpu} (hu : ticks n cpu = .ok () u) : u.halted = false := by
  obtain ⟨t₁, ht₁, hload₁, hh₁, hsc₁, hinject₁, hd₁⟩ :=
    exists_fetchStart hb.loaded hb.halted (exists_irValue hb.ir) hb.sc
  have hir₁ : ∃ i ∈ Isa.instructions, t₁.irValue = i.opcode := by
    apply exists_irValue
    rw [hd₁]
    exact hb.ir
  obtain ⟨t₂, ht₂, hload₂, hh₂, hinject₂, hir₂⟩ := exists_fetchOpcode hload₁ hh₁ hir₁ hsc₁
  have hvalue : t₂.irValue = cpu.datapath.memory.byteAt cpu.datapath.pc := by
    unfold irValue
    rw [hinject₂, hinject₁, hirq, hir₂, hd₁]
    rfl
  rw [← hvalue] at hop
  exact running_of_tick hb.halted ht₁ (running_of_tick hh₁ ht₂
    fun n _ => running_of_unknown hload₂ hh₂ hop n) n hu

/-- Nor does it halt behind an interrupt that has been taken in front of such a byte: the byte takes
over when the next instruction starts. -/
theorem running_of_stale {cpu : Cpu} (hload : cpu.Loaded Irata.program) (hh : cpu.halted = false)
    (hsc : cpu.controller.sc = 0) (hinject : cpu.controller.injectInterrupt = true)
    (hirq : cpu.takesInterrupt = false)
    (hop : ∀ i ∈ Isa.instructions, i.opcode ≠ cpu.datapath.ir) (n : Nat) {u : Cpu}
    (hu : ticks n cpu = .ok () u) : u.halted = false := by
  have hvalue : ∃ i ∈ Isa.instructions, cpu.irValue = i.opcode := by
    unfold irValue
    rw [hinject]
    exact exists_irq
  obtain ⟨t, ht, hload', hh', -, hinject', hd⟩ := exists_fetchStart hload hh hvalue hsc
  have hir : t.irValue = cpu.datapath.ir := by
    unfold irValue
    rw [hinject', hirq, hd]
    rfl
  rw [← hir] at hop
  exact running_of_tick hh ht (fun n _ => running_of_unknown hload' hh' hop n) n hu

/-! ## Between two instructions -/

/-- A CPU that has crashed has halted. -/
def CrashHalts (cpu : Cpu) : Prop := cpu.crashed = true → cpu.halted = true

theorem crashHalts_tick {cpu cpu' : Cpu} (hload : cpu.Loaded Irata.program)
    (hcrash : cpu.CrashHalts) (htick : tick cpu = .ok () cpu') : cpu'.CrashHalts := by
  rcases tick_cases Irata.compile_instructionSet hload with ⟨-, ht⟩ | ⟨e, -, -, ht⟩ |
    ⟨controls, d, -, -, -, ht⟩ | ⟨e, s, -, ht⟩
  · cases htick.symm.trans ht
    exact hcrash
  · cases htick.symm.trans ht
  · cases htick.symm.trans ht
    intro hcrashed
    change (cpu.crashed || cpu.assertedBy controls .crash) = true at hcrashed
    show (cpu.halted || cpu.assertedBy controls .halt || cpu.assertedBy controls .crash) = true
    rw [Bool.or_eq_true] at hcrashed
    obtain hbefore | hnow := hcrashed
    · rw [hcrash hbefore, Bool.true_or, Bool.true_or]
    · rw [hnow, Bool.or_true]
  · cases htick.symm.trans ht

/-- What every tick keeps holds after any number of ticks. -/
theorem ticks_induction {P : Cpu → Prop}
    (hstep : ∀ {s t : Cpu}, s.Loaded Irata.program → P s → tick s = .ok () t → P t) {n : Nat}
    {cpu cpu' : Cpu} (hload : cpu.Loaded Irata.program) (h : P cpu)
    (hticks : ticks n cpu = .ok () cpu') : P cpu' := by
  induction n generalizing cpu with
  | zero =>
      cases hticks
      exact h
  | succ n ih =>
      obtain ⟨t, ht⟩ := ticks_prefix hticks (m := 1) n.succ_pos
      have htick : tick cpu = .ok () t := by
        cases hc : tick cpu with
        | ok u s =>
            rw [ticks_succ hc] at ht
            exact ht
        | error e s =>
            change (tick >>= fun _ => ticks 0) cpu = _ at ht
            rw [bind_of_error hc] at ht
            cases ht
      rw [ticks_succ htick] at hticks
      exact ih (loaded_step Irata.compile_instructionSet hload (.tick htick))
        (hstep hload h htick) hticks

/-- Between two instructions of a program that goes on. -/
structure Ready (cpu : Cpu) : Prop extends AtBoundary cpu where
  line : cpu.LineIdle
  crashed : cpu.crashed = false

theorem interrupted_eq {cpu : Cpu} (hline : cpu.LineIdle) :
    cpu.datapath.arch.interrupted = cpu.takesInterrupt := by
  unfold Arch.interrupted takesInterrupt irqLevel
  show (cpu.datapath.memory.irqLevels.getLast?.getD false && _) = _
  cases hlast : cpu.datapath.memory.irqLevels.getLast? with
  | some level => rfl
  | none =>
      -- no device drives the line, so it is low
      have hnone : ¬cpu.datapath.memory.DrivesLine := by
        rw [Memory.DrivesLine, not_not]
        exact List.getLast?_eq_none_iff.mp hlast
      rw [hline hnone]
      rfl

theorem nextOpcode_eq {cpu : Cpu} (hline : cpu.LineIdle) :
    cpu.datapath.arch.nextOpcode = cpu.nextOpcode := by
  unfold Arch.nextOpcode nextOpcode
  rw [interrupted_eq hline]
  rfl

theorem stops_eq (action : Isa.Action) : stops action = (stopReason action).isSome := by
  cases action <;> rfl

/-- The only step of an instruction that stops the CPU. -/
def stopControl : HaltReason → Control
  | .crash => .crash
  | _ => .halt

theorem bodyOn_of_stopReason {i : InstructionInfo} (hi : i ∈ Isa.instructions) {status : Byte}
    {r : HaltReason} (h : stopReason (actionOn i status) = some r) :
    bodyOn i status = [[stopControl r]] := by
  have hall : ∀ i ∈ Isa.instructions,
      ∀ action ∈ [i.mnemonic.action i.addressingMode, i.mnemonic.otherwise],
      ∀ r ∈ stopReason action, Irata.body i.addressingMode action = [[stopControl r]] := by
    decide +kernel
  exact hall i hi _ (actionOn_mem i status) r h

section Block

variable {cpu : Cpu} (h : cpu.Ready) {i : InstructionInfo}

include h

/-- An instruction that does not stop the CPU, and whose byte is an opcode, leads to the next
one. -/
theorem ready_of_finished
    (hop : ∃ j ∈ Isa.instructions, cpu.datapath.arch.look cpu.datapath.pc = j.opcode)
    (hstop : stopReason (actionOn i cpu.datapath.status) = none) {s : Arch}
    (hexec : cpu.datapath.arch.execute i = .ok s) {t : Cpu}
    (ht : ticks (duration i cpu.datapath.status) cpu = .ok () t) (harch : t.datapath.arch = s)
    (hf : Finished i cpu t) : t.Ready := by
  have hhalted : t.halted = false := by
    rw [hf.halted, stops_eq, hstop]
    rfl
  have hlow : t.datapath.memory.LowRam := by
    have hkeep := Arch.lowRam_execute (s := cpu.datapath.arch) h.lowRam hexec
    rw [← harch] at hkeep
    exact hkeep
  have hcrash : t.CrashHalts := by
    refine ticks_induction (fun hload hc htick => crashHalts_tick hload hc htick) h.loaded ?_ ht
    intro hcrashed
    rw [h.crashed] at hcrashed
    cases hcrashed
  refine ⟨⟨hf.loaded, hhalted, hf.sc, ?_, hlow⟩, ?_, ?_⟩
  · rw [hf.ir]
    exact hop
  · exact ticks_induction (fun hload hl htick => lineIdle_tick hload hl htick) h.loaded h.line ht
  · rw [← Bool.not_eq_true]
    intro hcrashed
    rw [hcrash hcrashed] at hhalted
    cases hhalted

/-- The instruction that stops the CPU says why. -/
theorem stopped_of_finished (hi : i ∈ Isa.instructions) (hnext : cpu.nextOpcode = i.opcode)
    {r : HaltReason} (hstop : stopReason (actionOn i cpu.datapath.status) = some r) {t : Cpu}
    (ht : ticks (duration i cpu.datapath.status) cpu = .ok () t) : t.stopped = r := by
  obtain ⟨cpu₁, cpu₂, cpu₃, htick₁, -, htick₂, -, htick₃, hf, -⟩ :=
    exists_fetched h.toAtBoundary ⟨i, hi, hnext⟩
  have hfetch : ticks 3 cpu = .ok () cpu₃ := by
    rw [ticks_succ htick₁, ticks_succ htick₂, ticks_succ htick₃]
    rfl
  have hcrash : cpu₃.CrashHalts := by
    refine ticks_induction (fun hload hc htick => crashHalts_tick hload hc htick) h.loaded ?_ hfetch
    intro hcrashed
    rw [h.crashed] at hcrashed
    cases hcrashed
  have hcrashed : cpu₃.crashed = false := by
    rw [← Bool.not_eq_true]
    intro hset
    have hhalted := hcrash hset
    rw [hf.halted] at hhalted
    cases hhalted
  -- the body is one step, and its control decides
  have hbody := bodyOn_of_stopReason hi hstop
  have hat := atSteps_of_fetched hf hi hnext
  rw [hbody] at hat
  have hstep : cpu₃.datapath.step (Datapath.on [stopControl r]) = .ok cpu₃.datapath := by
    cases r with
    | crash => exact Microstep.step_crash _
    | running | timeout | halt => exact Microstep.step_halt _
  have htick := tick_of_atSteps Irata.accepts_instructionSet Irata.compile_instructionSet hf.loaded
    hf.halted hat hstep
  unfold duration at ht
  rw [hbody, ticks_add hfetch, show [[stopControl r]].length = 1 from rfl, ticks_succ htick] at ht
  cases ht
  unfold stopped
  show (if (cpu₃.crashed || _) = true then HaltReason.crash else HaltReason.halt) = r
  rw [hcrashed, assertedBy_microstep (by cases r <;> decide) (by decide), Bool.false_or]
  cases hact : actionOn i cpu.datapath.status <;> rw [hact] at hstop <;> cases hstop <;> rfl

/-- Where the next block is, the row of the table that runs. -/
theorem nextBlock_eq_some {b : Blocks.Block Arch HaltReason}
    (hb : cpu.datapath.arch.nextBlock = some b) :
    (∃ j ∈ Isa.instructions, cpu.datapath.arch.look cpu.datapath.pc = j.opcode) ∧
      ∃ i ∈ Isa.instructions, cpu.nextOpcode = i.opcode ∧
        cpu.datapath.arch.execute i = .ok b.state ∧ b.ticks = duration i cpu.datapath.status ∧
        b.verdict = stopReason (actionOn i cpu.datapath.status) := by
  unfold Arch.nextBlock at hb
  split at hb
  · rename_i hop
    obtain ⟨j, hj, hjop⟩ := List.any_eq_true.mp hop
    obtain ⟨i, hfind, hb⟩ := Option.bind_eq_some_iff.mp hb
    obtain ⟨s, hs, rfl⟩ := Option.map_eq_some_iff.mp hb
    have hi : i ∈ Isa.instructions := List.mem_of_find?_eq_some hfind
    have hopcode : i.opcode = cpu.nextOpcode := by
      rw [← nextOpcode_eq h.line]
      exact eq_of_beq (List.find?_some (p := fun i : InstructionInfo => i.opcode == _) hfind)
    have hexec : cpu.datapath.arch.execute i = .ok s := by
      cases he : cpu.datapath.arch.execute i with
      | error e =>
          rw [he] at hs
          cases hs
      | ok t =>
          rw [he] at hs
          cases hs
          rfl
    exact ⟨⟨j, hj, (eq_of_beq hjop).symm⟩, i, hi, hopcode.symm, hexec, rfl, rfl⟩
  · cases hb

/-- Without a next block the CPU does not halt: it fails, or it ticks forever. -/
theorem running_of_nextBlock_none (hb : cpu.datapath.arch.nextBlock = none) (n : Nat) {u : Cpu}
    (hu : ticks n cpu = .ok () u) : u.halted = false := by
  unfold Arch.nextBlock at hb
  split at hb
  · -- the byte is an opcode, so the store has failed
    rename_i hop
    have hrow : ∃ i ∈ Isa.instructions, cpu.nextOpcode = i.opcode := by
      unfold nextOpcode
      split
      · exact exists_irq
      · obtain ⟨j, hj, hjop⟩ := List.any_eq_true.mp hop
        exact ⟨j, hj, (eq_of_beq hjop).symm⟩
    cases hfind : Isa.instructions.find? fun i => i.opcode == cpu.datapath.arch.nextOpcode with
    | none =>
        obtain ⟨i, hi, hopcode⟩ := hrow
        have hnot := List.find?_eq_none.mp hfind i hi
        rw [nextOpcode_eq h.line, hopcode, beq_self_eq_true] at hnot
        exact absurd rfl hnot
    | some i =>
        have hi : i ∈ Isa.instructions := List.mem_of_find?_eq_some hfind
        have hopcode : i.opcode = cpu.nextOpcode := by
          rw [← nextOpcode_eq h.line]
          exact eq_of_beq (List.find?_some (p := fun i : InstructionInfo => i.opcode == _) hfind)
        rw [hfind] at hb
        cases hexec : cpu.datapath.arch.execute i with
        | error e => exact running_of_error h.toAtBoundary hi hopcode.symm hexec n hu
        | ok s =>
            change ((cpu.datapath.arch.execute i).toOption.map _) = none at hb
            rw [hexec] at hb
            cases hb
  · rename_i hop
    have hunknown : ∀ i ∈ Isa.instructions,
        i.opcode ≠ cpu.datapath.memory.byteAt cpu.datapath.pc := by
      intro i hi heq
      exact hop (List.any_eq_true.mpr ⟨i, hi, beq_iff_eq.mpr heq⟩)
    cases hirq : cpu.takesInterrupt with
    | false => exact running_of_fetched_unknown h.toAtBoundary hirq hunknown n hu
    | true =>
        -- the entry runs first, and leaves interrupts disabled
        have hnext : cpu.nextOpcode = irqImplied.opcode := by
          unfold nextOpcode
          rw [hirq]
          rfl
        by_cases hn : n < duration irqImplied cpu.datapath.status
        · exact running_inside h.toAtBoundary irqImplied_mem hnext hn hu
        · obtain ⟨k, rfl⟩ := Nat.exists_eq_add_of_le (Nat.le_of_not_lt hn)
          obtain ⟨s, hexec, hdisabled⟩ : ∃ s, cpu.datapath.arch.execute irqImplied = .ok s ∧
              Status.value .interruptDisable s.status = true := by
            refine ⟨_, rfl, ?_⟩
            show Status.value .interruptDisable (Status.assign .brk false
              (Status.assign .brk false (Status.assign .interruptDisable true _))) = true
            rw [Status.value_assign, if_neg (by decide), Status.value_assign, if_neg (by decide),
              Status.value_assign, if_pos rfl]
          obtain ⟨t, hexecutes, rfl, hf⟩ :=
            exists_executes h.toAtBoundary irqImplied_mem hnext hexec
          have ht := (executes_iff h.toAtBoundary irqImplied_mem hnext).mp hexecutes
          rw [ticks_add ht] at hu
          have hno : t.takesInterrupt = false := by
            unfold takesInterrupt
            rw [show Status.value .interruptDisable t.datapath.status = true from hdisabled]
            exact Bool.and_false _
          refine running_of_stale hf.loaded hf.halted hf.sc (hf.injectInterrupt.trans hirq) hno ?_ k hu
          rw [hf.ir]
          exact hunknown

end Block

/-- Between two instructions the CPU does what the interpreter says. -/
theorem refines_interpret :
    Blocks.Refines tick? (·.halted) stopped Ready (·.datapath.arch) Arch.nextBlock where
  pos := by
    intro x b hb
    unfold Arch.nextBlock at hb
    split at hb
    · obtain ⟨i, -, hb⟩ := Option.bind_eq_some_iff.mp hb
      obtain ⟨s, -, rfl⟩ := Option.map_eq_some_iff.mp hb
      show 0 < 3 + _
      omega
    · cases hb
  block := by
    intro cpu b h hb
    obtain ⟨hop, i, hi, hnext, hexec, hticks, hverdict⟩ := nextBlock_eq_some h hb
    obtain ⟨t, hexecutes, harch, hf⟩ := exists_executes h.toAtBoundary hi hnext hexec
    have ht := (executes_iff h.toAtBoundary hi hnext).mp hexecutes
    rw [hticks, hverdict]
    refine ⟨t, iter_tick?_iff.mpr ht, harch, ?_, ?_⟩
    · intro hstop
      exact ready_of_finished h hop hstop hexec ht harch hf
    · intro r hstop
      refine ⟨?_, stopped_of_finished h hi hnext hstop ht⟩
      rw [hf.halted, stops_eq, hstop]
      rfl
  running := by
    intro cpu b h hb m hm u hu
    obtain ⟨-, i, hi, hnext, -, hticks, -⟩ := nextBlock_eq_some h hb
    rw [hticks] at hm
    exact running_inside h.toAtBoundary hi hnext hm (iter_tick?_iff.mp hu)
  stuck := by
    intro cpu h hb n u hu
    exact running_of_nextBlock_none h hb n (iter_tick?_iff.mp hu)

/-- A CPU at a boundary halts exactly when the interpreter does: after the same number of ticks, for
the same reason and with the same registers and memory. -/
theorem haltsAfter_iff_interpret {cpu : Cpu} (h : cpu.Ready) {n : Nat} {r : HaltReason}
    {s : Arch} :
    (∃ t, HaltsAfter n cpu t ∧ t.stopped = r ∧ t.datapath.arch = s) ↔
      ∃ fuel, cpu.datapath.arch.interpret fuel = some (n, r, s) :=
  refines_interpret.haltsAfter_iff h

/-! ## The loop -/

structure CpuState where
  a : Byte
  x : Byte
  y : Byte
  sp : Byte
  tmp : Word
  pc : Word
  ir : Byte
  sc : Byte
  status : Byte
  cycleCount : BitVec 64
  deriving DecidableEq, Repr

def captureState (cpu : Cpu) : CpuState where
  a := cpu.datapath.a
  x := cpu.datapath.x
  y := cpu.datapath.y
  sp := cpu.datapath.sp
  tmp := cpu.datapath.tmp
  pc := cpu.datapath.pc
  ir := cpu.irValue
  sc := cpu.controller.sc
  status := cpu.datapath.status
  cycleCount := cpu.cycleCount

structure RunResult where
  reason : HaltReason
  cycles : BitVec 64
  state : Option CpuState
  deriving DecidableEq, Repr

/-- The loop of `RunUntilHalt`, with an upper bound on the number of its rounds. -/
def runLoop (startCycles maxCycles : BitVec 64) : Nat → SimM Unit
  | 0 => pure ()
  | rounds + 1 => do
      let cpu ← get
      if !cpu.halted && decide (cpu.cycleCount - startCycles < maxCycles) then
        tick
        runLoop startCycles maxCycles rounds
      else pure ()

/-- `RunUntilHalt(max_cycles, capture_state)`.  Every round counts one cycle, so there are no more of
them than cycles. -/
def runUntilHalt (maxCycles : BitVec 64) (capture : Bool) : SimM RunResult := do
  let startCycles := (← get).cycleCount
  runLoop startCycles maxCycles maxCycles.toNat
  let cpu ← get
  pure
    { reason := if cpu.halted then cpu.stopped else .timeout
      cycles := cpu.cycleCount - startCycles
      state := if capture then some (captureState cpu) else none }

/-- A tick of a CPU that has not halted counts one cycle. -/
theorem cycleCount_of_tick {cpu cpu' : Cpu} (hload : cpu.Loaded Irata.program)
    (hh : cpu.halted = false) (htick : tick cpu = .ok () cpu') :
    cpu'.cycleCount = cpu.cycleCount + 1 := by
  rcases tick_cases Irata.compile_instructionSet hload with ⟨hhalted, -⟩ | ⟨e, -, -, ht⟩ |
    ⟨controls, d, -, -, -, ht⟩ | ⟨e, s, -, ht⟩
  · rw [hh] at hhalted
    cases hhalted
  · cases htick.symm.trans ht
  · cases htick.symm.trans ht
    rfl
  · cases htick.symm.trans ht

/-- The loop ticks until the cycles run out: a halted CPU would not change any more. -/
theorem runLoop_eq_ticks {startCycles maxCycles : BitVec 64} {rounds : Nat} {cpu : Cpu}
    (hload : cpu.Loaded Irata.program)
    (hrounds : (cpu.cycleCount - startCycles).toNat + rounds ≤ maxCycles.toNat) :
    runLoop startCycles maxCycles rounds cpu = ticks rounds cpu := by
  induction rounds generalizing cpu with
  | zero => rfl
  | succ rounds ih =>
      show (if (!cpu.halted && decide _) = true then _ else pure () : SimM Unit) cpu = _
      by_cases hh : cpu.halted = true
      · rw [hh, ticks_of_halted hh]
        rfl
      · rw [Bool.not_eq_true] at hh
        have hlt : cpu.cycleCount - startCycles < maxCycles := by
          rw [BitVec.lt_def]
          omega
        rw [hh, decide_eq_true hlt, Bool.not_false, Bool.true_and, if_pos rfl]
        cases ht : tick cpu with
        | error e t => rw [bind_of_error ht, show ticks (rounds + 1) cpu = _ from bind_of_error ht]
        | ok u t =>
            rw [bind_of_ok ht, ticks_succ ht]
            apply ih (loaded_step Irata.compile_instructionSet hload (.tick ht))
            rw [cycleCount_of_tick hload hh ht]
            -- the count of cycles does not wrap below the limit
            have hmax := maxCycles.isLt
            have hsucc : cpu.cycleCount + 1 - startCycles = cpu.cycleCount - startCycles + 1 := by
              rw [BitVec.sub_eq_add_neg, BitVec.sub_eq_add_neg, BitVec.add_assoc, BitVec.add_comm 1,
                ← BitVec.add_assoc]
            rw [hsucc, BitVec.toNat_add, Nat.mod_eq_of_lt (by show _ + 1 < _; omega)]
            show _ + 1 + _ ≤ _
            omega

/-- What `RunUntilHalt` returns is read off the state that its ticks lead to. -/
theorem runUntilHalt_eq_ok {maxCycles : BitVec 64} {capture : Bool} {cpu t : Cpu}
    {result : RunResult} (hload : cpu.Loaded Irata.program) :
    runUntilHalt maxCycles capture cpu = .ok result t ↔
      ticks maxCycles.toNat cpu = .ok () t ∧
        result = ⟨if t.halted then t.stopped else .timeout, t.cycleCount - cpu.cycleCount,
          if capture then some (captureState t) else none⟩ := by
  have hloop : runLoop cpu.cycleCount maxCycles maxCycles.toNat cpu = ticks maxCycles.toNat cpu := by
    apply runLoop_eq_ticks hload
    rw [BitVec.sub_self]
    exact Nat.le_of_eq (Nat.zero_add _)
  show (runLoop cpu.cycleCount maxCycles maxCycles.toNat >>= fun _ => (do
    let t ← get
    pure _ : SimM RunResult)) cpu = _ ↔ _
  rw [← hloop]
  cases hl : runLoop cpu.cycleCount maxCycles maxCycles.toNat cpu with
  | error e s =>
      rw [bind_of_error hl]
      exact iff_of_false (fun h => by cases h) (fun h => by cases h.1)
  | ok u s =>
      rw [bind_of_ok hl]
      constructor
      · intro h
        cases h
        exact ⟨rfl, rfl⟩
      · rintro ⟨h, rfl⟩
        cases h
        rfl

/-- The ticks of a run that has not halted are counted. -/
theorem cycleCount_of_ticks {n : Nat} {cpu t : Cpu} (hload : cpu.Loaded Irata.program)
    (hrunning : ∀ m < n, ∀ u, ticks m cpu = .ok () u → u.halted = false)
    (hticks : ticks n cpu = .ok () t) : t.cycleCount = cpu.cycleCount + BitVec.ofNat 64 n := by
  induction n generalizing cpu with
  | zero =>
      cases hticks
      exact (BitVec.add_zero _).symm
  | succ n ih =>
      cases ht : tick cpu with
      | error e s =>
          change (tick >>= fun _ => ticks n) cpu = _ at hticks
          rw [bind_of_error ht] at hticks
          cases hticks
      | ok u s =>
          have hh : cpu.halted = false := hrunning 0 n.succ_pos cpu rfl
          rw [ticks_succ ht] at hticks
          have hrest := ih (loaded_step Irata.compile_instructionSet hload (.tick ht))
            (fun m hm u hu => hrunning (m + 1) (by omega) u (by rw [ticks_succ ht]; exact hu)) hticks
          rw [hrest, cycleCount_of_tick hload hh ht, BitVec.add_assoc, Nat.add_comm n 1,
            BitVec.ofNat_add]
          rfl

/-- The result of a run that halts in time. -/
theorem runUntilHalt_of_haltsAfter {maxCycles : BitVec 64} {capture : Bool} {cpu t : Cpu} {n : Nat}
    (hload : cpu.Loaded Irata.program) (h : HaltsAfter n cpu t) (hn : n ≤ maxCycles.toNat) :
    runUntilHalt maxCycles capture cpu = .ok ⟨t.stopped, BitVec.ofNat 64 n,
      if capture then some (captureState t) else none⟩ t := by
  have hticks : ticks n cpu = .ok () t := iter_tick?_iff.mp h.reaches
  have hcount : t.cycleCount = cpu.cycleCount + BitVec.ofNat 64 n :=
    cycleCount_of_ticks hload (fun m hm u hu => h.running m hm u (iter_tick?_iff.mpr hu)) hticks
  rw [runUntilHalt_eq_ok hload]
  refine ⟨?_, ?_⟩
  · obtain ⟨k, hk⟩ := Nat.exists_eq_add_of_le hn
    rw [hk, ticks_add hticks, ticks_of_halted h.stopped]
  · have hhalted : t.halted = true := h.stopped
    rw [if_pos hhalted, hcount, BitVec.add_comm, BitVec.add_sub_cancel]

/-- `RunUntilHalt` returns the halt of the CPU if that comes in time.  Otherwise it throws, or times
out after exactly the cycles that it was given. -/
theorem runUntilHalt_iff_haltsAfter {cpu : Cpu} (hload : cpu.Loaded Irata.program)
    (maxCycles : BitVec 64) (capture : Bool) :
    (∀ n ≤ maxCycles.toNat, ∀ r s,
      (∃ state t, runUntilHalt maxCycles capture cpu = .ok ⟨r, BitVec.ofNat 64 n, state⟩ t ∧
          r ≠ .timeout ∧ t.datapath.arch = s) ↔
        ∃ t, HaltsAfter n cpu t ∧ t.stopped = r ∧ t.datapath.arch = s) ∧
      ∀ result t, runUntilHalt maxCycles capture cpu = .ok result t →
        result.cycles ≤ maxCycles ∧ (result.reason = .timeout → result.cycles = maxCycles) := by
  have hlt := maxCycles.isLt
  -- without a halt the reason is the timeout, and every tick has been counted
  have hrest : ∀ result t, runUntilHalt maxCycles capture cpu = .ok result t →
      (∀ m ≤ maxCycles.toNat, ∀ u, Blocks.iter tick? m cpu = some u → u.halted = false) →
      result.reason = .timeout ∧ result.cycles = maxCycles := by
    intro result t hrun hrunning
    obtain ⟨hticks, rfl⟩ := (runUntilHalt_eq_ok hload).mp hrun
    have hhalted := hrunning _ (Nat.le_refl _) t (iter_tick?_iff.mpr hticks)
    have hcount := cycleCount_of_ticks hload
      (fun m hm u hu => hrunning m (by omega) u (iter_tick?_iff.mpr hu)) hticks
    refine ⟨?_, ?_⟩
    · show (if t.halted = true then _ else _) = HaltReason.timeout
      rw [hhalted]
      rfl
    · show t.cycleCount - cpu.cycleCount = maxCycles
      rw [hcount, BitVec.add_comm, BitVec.add_sub_cancel, BitVec.ofNat_toNat, BitVec.setWidth_eq]
  refine ⟨?_, ?_⟩
  · intro n hn r s
    constructor
    · rintro ⟨state, t, hrun, hreason, rfl⟩
      obtain ⟨m, hm, u, hhalts⟩ | hrunning :=
        Blocks.exists_haltsAfter tick? (·.halted) cpu maxCycles.toNat
      · have heq := (runUntilHalt_of_haltsAfter hload hhalts hm).symm.trans
          hrun
        obtain ⟨hresult, rfl⟩ := EStateM.Result.ok.inj heq
        obtain ⟨hstopped, hcycles, -⟩ := RunResult.mk.inj hresult
        -- both counts of cycles are below the limit, so none of them wraps
        have hmn : m = n := by
          have hnat := congrArg BitVec.toNat hcycles
          rw [BitVec.toNat_ofNat, BitVec.toNat_ofNat, Nat.mod_eq_of_lt (by omega),
            Nat.mod_eq_of_lt (by omega)] at hnat
          exact hnat
        subst hmn
        exact ⟨u, hhalts, hstopped, rfl⟩
      · exact absurd (hrest _ t hrun hrunning).1 hreason
    · rintro ⟨t, hhalts, rfl, rfl⟩
      refine ⟨_, t, runUntilHalt_of_haltsAfter hload hhalts hn, ?_, rfl⟩
      unfold stopped
      split <;> decide
  · intro result t hrun
    obtain ⟨m, hm, u, hhalts⟩ | hrunning :=
      Blocks.exists_haltsAfter tick? (·.halted) cpu maxCycles.toNat
    · cases (runUntilHalt_of_haltsAfter hload hhalts hm).symm.trans hrun
      refine ⟨?_, ?_⟩
      · rw [BitVec.le_def, BitVec.toNat_ofNat, Nat.mod_eq_of_lt (by omega)]
        exact hm
      · intro hreason
        change t.stopped = .timeout at hreason
        unfold stopped at hreason
        split at hreason <;> cases hreason
    · have hcycles := (hrest result t hrun hrunning).2
      exact ⟨BitVec.le_of_eq hcycles, fun _ => hcycles⟩

/-- `RunUntilHalt` returns what the interpreter says if that halts in time: the reason, the cycles,
the memory and, when the state is captured, the registers.  Otherwise it throws, or times out after
exactly the cycles that it was given, and it never takes more. -/
theorem runUntilHalt_iff_interpret {cpu : Cpu} (h : cpu.Ready) (maxCycles : BitVec 64)
    (capture : Bool) :
    (∀ n ≤ maxCycles.toNat, ∀ r s,
      (∃ t, runUntilHalt maxCycles capture cpu = .ok ⟨r, BitVec.ofNat 64 n,
            if capture then
              some { a := s.a, x := s.x, y := s.y, sp := s.sp, tmp := t.datapath.tmp, pc := s.pc,
                     ir := t.irValue, sc := t.controller.sc, status := s.status,
                     cycleCount := cpu.cycleCount + BitVec.ofNat 64 n }
            else none⟩ t ∧
          r ≠ .timeout ∧ t.datapath.arch = s) ↔
        ∃ fuel, cpu.datapath.arch.interpret fuel = some (n, r, s)) ∧
      ∀ result t, runUntilHalt maxCycles capture cpu = .ok result t →
        result.cycles ≤ maxCycles ∧ (result.reason = .timeout → result.cycles = maxCycles) := by
  obtain ⟨hhalts, hcycles⟩ := runUntilHalt_iff_haltsAfter h.loaded maxCycles capture
  refine ⟨?_, hcycles⟩
  intro n hn r s
  rw [← haltsAfter_iff_interpret h, ← hhalts n hn r s]
  constructor
  · rintro ⟨t, hrun, hreason, harch⟩
    exact ⟨_, t, hrun, hreason, harch⟩
  · rintro ⟨state, t, hrun, hreason, rfl⟩
    refine ⟨t, hrun.trans ?_, hreason, rfl⟩
    obtain ⟨-, hresult⟩ := (runUntilHalt_eq_ok h.loaded).mp hrun
    obtain ⟨-, hcount, rfl⟩ := RunResult.mk.inj hresult
    -- the cycles of the run are those since its start
    have hcycleCount : t.cycleCount = cpu.cycleCount + BitVec.ofNat 64 n := by
      rw [hcount, BitVec.add_comm, BitVec.sub_add_cancel]
    rw [← hcycleCount]
    rfl

/-- A program of one instruction halts after four of its ten cycles, behind its only byte. -/
theorem runUntilHalt_iff_interpret_image : ∃ cpu state t,
    runUntilHalt 10 true cpu = .ok ⟨.halt, 4, some state⟩ t ∧ cpu.Ready ∧
      state.pc = cpu.datapath.pc + 1 ∧ state.cycleCount = cpu.cycleCount + 4 := by
  obtain ⟨m, hm⟩ := exists_instructionMemory
  have hready : (start (imageDatapath [0x01]) m).Ready :=
    ⟨atBoundary_start hm exists_nop Memory.lowRam_of_head, fun _ => rfl, rfl⟩
  have hrun : (imageDatapath [0x01]).arch.interpret 1 =
      some (4, .halt, (imageDatapath [0x01]).arch.next) := by
    rfl
  have hiff := (runUntilHalt_iff_interpret hready 10 true).1 4 (by decide) .halt
    (imageDatapath [0x01]).arch.next
  obtain ⟨t, ht, -, -⟩ := hiff.mpr ⟨1, hrun⟩
  exact ⟨_, _, t, ht, hready, rfl, rfl⟩

end Cpu

end Irata2.Sim
