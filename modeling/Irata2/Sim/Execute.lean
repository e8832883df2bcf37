import Irata2.Sim.Microstep
import Irata2.Sim.Run

/-!
# Steps executed one tick each

The optimizers rewrite lists of steps before there is a program.  A list is executed by ticks of
the CPU on a microcode ROM that holds the controls of the next step at every address.  `Machine`
keeps what such ticks act on, and `Machine.tick` is what one of them does.
-/

namespace Irata2.Sim

open Hdl Library StateRun Microcode
open Datapath (on)

/-- The registers and the memory of a CPU, and the flags that stop it. -/
structure Registers where
  datapath : Datapath
  injectInterrupt : Bool
  sc : Byte
  ipc : Word
  halted : Bool
  crashed : Bool

/-- The registers with the latched interrupt line, on which the next tick depends. -/
structure Machine extends Registers where
  irqLine : Bool

namespace Machine

/-- The interrupt line after the Control phase: the last device decides, if there is one. -/
def irqLevel (l : List Control) (m : Machine) : Bool :=
  m.datapath.memory.irqLevels.getLast?.getD (decide (Control.irqLine ∈ l) || m.irqLine)

/-- The machine after a tick that leaves the datapath `d`. -/
def afterTick (l : List Control) (m : Machine) (d : Datapath) : Machine where
  datapath := d
  injectInterrupt :=
    if ByteRegister.ir.reset ∈ l then false
    else if Control.instructionStart ∈ l then
      m.irqLevel l && !Status.value .interruptDisable d.status
    else m.injectInterrupt
  sc :=
    if Control.scReset ∈ l then 0
    else if Control.scIncrement ∈ l then m.sc + 1
    else if Control.scDecrement ∈ l then m.sc - 1
    else m.sc
  ipc := if Control.instructionStart ∈ l ∨ Control.ipcLatch ∈ l then d.pc else m.ipc
  irqLine := m.irqLevel l
  halted := m.halted || decide (Control.halt ∈ l) || decide (Control.crash ∈ l)
  crashed := m.crashed || decide (Control.crash ∈ l)

/-- The registers when a store of a tick fails. -/
def atStore (l : List Control) (m : Machine) : Registers :=
  { m.toRegisters with datapath := (m.datapath.untilStore (on l)).1 }

/-- A tick under the controls of a list; when it throws, the registers stay as they were at the
throw. -/
def tick (l : List Control) (m : Machine) : Except (SimError × Registers) Machine :=
  if m.halted then .ok m
  else
    match m.datapath.step (on l) with
    | .ok d => .ok (m.afterTick l d)
    | .error e => .error (e, m.atStore l)

/-- The steps of a list, one tick each. -/
def run : List Step → Machine → Except (SimError × Registers) Machine
  | [], m => .ok m
  | s :: steps, m => m.tick s.controls >>= run steps

theorem tick_of_halted {m : Machine} (h : m.halted = true) (l : List Control) :
    m.tick l = .ok m :=
  if_pos h

theorem tick_of_step {m : Machine} (h : m.halted = false) {l : List Control} {d : Datapath}
    (hd : m.datapath.step (on l) = .ok d) : m.tick l = .ok (m.afterTick l d) := by
  unfold tick
  rw [h, hd]
  rfl

theorem tick_of_step_error {m : Machine} (h : m.halted = false) {l : List Control} {e : SimError}
    (he : m.datapath.step (on l) = .error e) : m.tick l = .error (e, m.atStore l) := by
  unfold tick
  rw [h, he]
  rfl

end Machine

namespace Cpu

/-- What the steps of a list act on. -/
def machine (cpu : Cpu) : Machine where
  datapath := cpu.datapath
  injectInterrupt := cpu.controller.injectInterrupt
  sc := cpu.controller.sc
  ipc := cpu.controller.ipc
  irqLine := cpu.asserted .irqLine
  halted := cpu.halted
  crashed := cpu.crashed

/-- The machine at the end of a program, or the error it throws and the registers at the throw. -/
def outcome : EStateM.Result SimError Cpu Unit → Except (SimError × Registers) Machine
  | .ok _ cpu => .ok cpu.machine
  | .error e cpu => .error (e, cpu.machine.toRegisters)

/-- The CPU with a microcode ROM that holds the given controls at every address. -/
def holding (controls : List Control) (cpu : Cpu) : Cpu :=
  { cpu with
    controller := { cpu.controller with
      instructionMemory := ⟨cpuControls, [], ⟨2 ^ 24, fun _ => encodeControls controls⟩⟩ } }

/-- Executes a list of steps, one tick each. -/
def execute (steps : List Microcode.Step) : SimM Unit :=
  steps.forM fun s => do
    modify (holding s.controls)
    tick

theorem lookup_holding (cpu : Cpu) (controls : List Control) :
    (cpu.holding controls).lookup =
      .ok (InstructionMemory.decode (encodeControls controls)) := by
  refine @InstructionMemory.lookup_of_word (cpu.holding controls).controller.instructionMemory rfl
    ⟨cpu.irValue, cpu.controller.sc, (cpu.holding controls).encodedStatus⟩ _ ?_ fun i hi => ?_
  · exact if_neg (Nat.not_le.mpr (encodeKey_lt _))
  · rcases (getLsbD_encodeControls controls i).mp hi with ⟨d, -, rfl⟩
    exact controlIndex_lt d

theorem assertedBy_of_ne (cpu : Cpu) (l : List Control) {c : Control} (h : c ≠ .irqLine) :
    cpu.assertedBy l c = decide (c ∈ l) :=
  if_neg h

theorem assertedBy_irqLine (cpu : Cpu) (l : List Control) :
    cpu.assertedBy l .irqLine = cpu.machine.irqLevel l :=
  if_pos rfl

theorem machine_afterTick (cpu : Cpu) (l : List Control) (d : Datapath) :
    (cpu.afterTick (cpu.assertedBy l) d).machine = cpu.machine.afterTick l d := by
  have hline := assertedBy_irqLine cpu l
  have hon : ∀ c, c ≠ .irqLine → cpu.assertedBy l c = decide (c ∈ l) := fun c =>
    assertedBy_of_ne cpu l
  simp only [machine, afterTick, Controller.next, Machine.afterTick, hline,
    hon ByteRegister.ir.reset (by decide), hon .instructionStart (by decide),
    hon .scReset (by decide), hon .scIncrement (by decide), hon .scDecrement (by decide),
    hon .ipcLatch (by decide), hon .halt (by decide), hon .crash (by decide),
    decide_eq_true_eq, Bool.or_eq_true, Control.autoReset, Bool.false_eq_true, if_false]

theorem machine_atStore (cpu : Cpu) (l : List Control) :
    (cpu.atStore (cpu.assertedBy l)).machine.toRegisters = cpu.machine.atStore l := by
  have hdatapath : cpu.datapath.untilStore (cpu.assertedBy l) = cpu.datapath.untilStore (on l) := by
    refine Datapath.untilStore_congr (fun c hc _ => assertedBy_of_ne cpu l ?_) _
    rintro rfl
    cases hc
  show Registers.mk (cpu.datapath.untilStore (cpu.assertedBy l)).1 _ _ _ _ _ = _
  rw [hdatapath]
  rfl

/-- A tick on such a ROM is a tick of the machine. -/
theorem outcome_tick {cpu : Cpu} (hidle : cpu.Idle) {s : Microcode.Step} (hs : BusValid s) :
    outcome (tick (cpu.holding s.controls)) = cpu.machine.tick s.controls ∧
      ∀ t, tick (cpu.holding s.controls) = .ok () t → t.Idle := by
  have hidle' : (cpu.holding s.controls).Idle := ⟨hidle.asserted, hidle.dataBus, hidle.addressBus⟩
  by_cases hh : cpu.halted = true
  · have ht := @tick_of_halted (cpu.holding s.controls) hh
    rw [ht, Machine.tick_of_halted hh]
    exact ⟨rfl, fun t h => by cases h; exact hidle'⟩
  · rw [Bool.not_eq_true] at hh
    have hl := lookup_holding cpu s.controls
    have hcs := assertedBy_decode (cpu.holding s.controls) s.controls
    have hb := Component.respectsBuses_of_busValid hs fun d bus hd =>
      @assertedBy_of_bus (cpu.holding s.controls) s.controls d bus hd
    have hd := step_assertedBy (cpu.holding s.controls) s.controls cpu.datapath
    cases hstep : cpu.datapath.step (on s.controls) with
    | ok d =>
        rw [hstep] at hd
        have ht := @tick_of_step (cpu.holding s.controls) hidle' hh _ hl (hcs ▸ hb) d (hcs ▸ hd)
        rw [ht, hcs, @Machine.tick_of_step cpu.machine hh _ d hstep]
        refine ⟨congrArg Except.ok ?_, fun t h => ?_⟩
        · exact machine_afterTick _ _ d
        · cases h
          exact idle_afterTick _ _ _
    | error e =>
        rw [hstep] at hd
        have ht := @tick_of_step_error (cpu.holding s.controls) hidle' hh _ hl (hcs ▸ hb) e
          (hcs ▸ hd)
        rw [ht, hcs, @Machine.tick_of_step_error cpu.machine hh _ e hstep]
        exact ⟨congrArg (fun m => Except.error (e, m)) (machine_atStore _ _),
          fun t h => (by cases h)⟩

/-- Executing a list of steps is running the machine through them. -/
theorem outcome_execute {cpu : Cpu} (hidle : cpu.Idle) {steps : List Microcode.Step}
    (h : ∀ s ∈ steps, BusValid s) : outcome (execute steps cpu) = cpu.machine.run steps := by
  induction steps generalizing cpu with
  | nil => rfl
  | cons s steps ih =>
      rcases outcome_tick hidle (h s List.mem_cons_self) with ⟨houtcome, hnext⟩
      show outcome ((tick >>= fun _ => execute steps) (cpu.holding s.controls)) =
        cpu.machine.tick s.controls >>= Machine.run steps
      rw [← houtcome]
      cases ht : tick (cpu.holding s.controls) with
      | ok u t =>
          rw [bind_of_ok ht]
          exact ih (hnext t ht) fun s' hs' => h s' (List.mem_cons_of_mem s hs')
      | error e t =>
          rw [bind_of_error ht]
          rfl

end Cpu

end Irata2.Sim
