import Irata2.Isa.Operations
import Irata2.Sim.Tick

/-!
# Sequences of microcode steps

A step of microcode is a list of controls.  Most of them act on the datapath; the others sequence
the microcode and do not touch it.  `Datapath.run` runs the steps of a list one tick each.
-/

namespace Irata2.Hdl

/-- Whether the control acts on the datapath. -/
def Control.isDatapath : Control → Bool
  | .halt | .crash | .irqLine | .instructionStart | .scReset | .scIncrement | .scDecrement
  | .ipcLatch => false
  | _ => true

end Irata2.Hdl

namespace Irata2.Sim

open Hdl Library

/-! ## Controls that do not reach the datapath -/

namespace Component

variable {cs cs' : Control → Bool}

theorem write_congr (h : ∀ c, c.isDatapath = true → c.phase = .write → cs c = cs' c)
    (w : Datapath × Buses) (x : Component) : x.write cs w = x.write cs' w := by
  cases x with
  | byteRegister r => simp only [write, h (.writeByte r) rfl rfl]
  | wordRegister r => simp only [write, h (.writeWord r) rfl rfl]
  | memory => simp only [write, h .memoryWrite rfl rfl]
  | _ => rfl

theorem read_congr (h : ∀ c, c.isDatapath = true → c.phase = .read → cs c = cs' c) (b : Buses)
    (d : Datapath) (x : Component) : x.read cs b d = x.read cs' b d := by
  cases x with
  | byteRegister r => simp only [read, h (.readByte r) rfl rfl]
  | wordRegister r => simp only [read, h (.readWord r) rfl rfl]
  | _ => rfl

theorem process_congr (h : ∀ c, c.isDatapath = true → c.phase = .process → cs c = cs' c)
    (d : Datapath) (x : Component) : x.process cs d = x.process cs' d := by
  have hreset : ∀ r, cs (.resetByte r) = cs' (.resetByte r) := fun r => h _ rfl rfl
  have hbit : ∀ i, cs (.aluOpcodeBit i) = cs' (.aluOpcodeBit i) := fun i => h _ rfl rfl
  cases x with
  | byteRegister r =>
      cases r <;> simp only [process, h .spIncrement rfl rfl, h .spDecrement rfl rfl, hreset]
  | wordRegister r =>
      cases r <;> simp only [process, h .pcIncrement rfl rfl, h .pcAddSignedOffset rfl rfl,
        h .marInterruptVector rfl rfl, h .marStackPage rfl rfl, h .marIncrement rfl rfl,
        h .marAddOffset rfl rfl, h (.resetWord _) rfl rfl]
  | alu => simp only [process, hbit]
  | statusBit f => simp only [process, h (.setStatus f) rfl rfl, h (.clearStatus f) rfl rfl]
  | _ => rfl

end Component

namespace Datapath

open StateRun

/-- The controls of a list, as the asserted ones. -/
def on (controls : List Control) : Control → Bool := fun c => decide (c ∈ controls)

/-- The Write phase and the loads before the store only depend on their controls. -/
theorem untilStore_congr {cs cs' : Control → Bool}
    (h : ∀ c, c.isDatapath = true → c.phase ≠ .process → cs c = cs' c) (d : Datapath) :
    d.untilStore cs = d.untilStore cs' := by
  have hphase : ∀ {p : TickPhase}, p ≠ .process → ∀ c, c.isDatapath = true → c.phase = p →
      cs c = cs' c := fun hp c hc hcp => h c hc (hcp ▸ hp)
  have hdrive : d.drive cs = d.drive cs' :=
    foldl_congr_fun (Component.write_congr (hphase (by decide))) components _
  unfold untilStore
  rw [hdrive]
  exact Prod.ext (foldl_congr_fun (Component.read_congr (hphase (by decide)) _)
    Component.front _) rfl

/-- The rest of a tick only depends on the Read and Process controls. -/
theorem finish_congr {cs cs' : Control → Bool}
    (hr : ∀ c, c.isDatapath = true → c.phase = .read → cs c = cs' c)
    (hp : ∀ c, c.isDatapath = true → c.phase = .process → cs c = cs' c) (b : Buses)
    (d : Datapath) : finish cs b d = finish cs' b d := by
  unfold finish
  rw [foldl_congr_fun (Component.read_congr hr b) Component.back]
  exact foldl_congr_fun (Component.process_congr hp) components _

theorem step_eq (cs : Control → Bool) (d : Datapath) :
    d.step cs =
      let w := d.untilStore cs
      if cs .memoryRead = true then
        (w.1.memory.writeAt w.1.mar (w.2.data.getD 0)).map fun memory =>
          finish cs w.2 { w.1 with memory := memory }
      else .ok (finish cs w.2 w.1) :=
  rfl

/-- The datapath only depends on the controls that reach it. -/
theorem step_congr {cs cs' : Control → Bool} (h : ∀ c, c.isDatapath = true → cs c = cs' c)
    (d : Datapath) : d.step cs = d.step cs' := by
  have hfinish : finish cs = finish cs' := by
    funext b d
    exact finish_congr (fun c hc _ => h c hc) (fun c hc _ => h c hc) b d
  rw [step_eq, step_eq, untilStore_congr (fun c hc _ => h c hc), h .memoryRead rfl, hfinish]

/-- Runs the steps of a list, one tick each. -/
def run : List (List Control) → Datapath → Except SimError Datapath
  | [], d => .ok d
  | s :: steps, d => d.step (on s) >>= run steps

theorem run_cons {s : List Control} {l : List (List Control)} {d d' : Datapath}
    (h : d.step (on s) = .ok d') : run (s :: l) d = run l d' := by
  show d.step (on s) >>= run l = _
  rw [h]
  rfl

/-! ## The components that a step involves -/

def writes (l : List Control) (c : Component) : Bool :=
  c.writeControl.any fun w => decide (w ∈ l)

def reads (l : List Control) (c : Component) : Bool :=
  c.readControl.any fun r => decide (r ∈ l)

def processes (l : List Control) : Component → Bool
  | .byteRegister .sp =>
      decide (ByteRegister.sp.reset ∈ l) || decide (.spIncrement ∈ l) || decide (.spDecrement ∈ l)
  | .byteRegister r => decide (r.reset ∈ l)
  | .wordRegister .tmp => decide (WordRegister.tmp.reset ∈ l)
  | .wordRegister .pc =>
      decide (WordRegister.pc.reset ∈ l) || decide (.pcIncrement ∈ l) ||
        decide (.pcAddSignedOffset ∈ l)
  | .wordRegister .mar =>
      decide (.marInterruptVector ∈ l) || decide (.marStackPage ∈ l) ||
        decide (.marIncrement ∈ l) || decide (.marAddOffset ∈ l)
  | .alu =>
      decide (.aluOpcodeBit 0 ∈ l) || decide (.aluOpcodeBit 1 ∈ l) ||
        decide (.aluOpcodeBit 2 ∈ l) || decide (.aluOpcodeBit 3 ∈ l)
  | .statusBit f => decide (f.set ∈ l) || decide (f.clear ∈ l)
  | _ => false

theorem write_of_not_writes {l : List Control} {c : Component} (h : writes l c = false)
    (w : Datapath × Buses) : c.write (on l) w = w := by
  cases c with
  | byteRegister r =>
      unfold Component.write
      exact if_neg (Bool.eq_false_iff.mp h)
  | wordRegister r =>
      unfold Component.write
      exact if_neg (Bool.eq_false_iff.mp h)
  | memory =>
      unfold Component.write
      exact if_neg (Bool.eq_false_iff.mp h)
  | _ => rfl

theorem read_of_not_reads {l : List Control} {c : Component} (h : reads l c = false) (b : Buses)
    (d : Datapath) : c.read (on l) b d = d := by
  cases c with
  | byteRegister r =>
      unfold Component.read
      exact if_neg (Bool.eq_false_iff.mp h)
  | wordRegister r =>
      unfold Component.read
      exact if_neg (Bool.eq_false_iff.mp h)
  | _ => rfl

theorem process_of_not_processes {l : List Control} {c : Component} (h : processes l c = false)
    (d : Datapath) : c.process (on l) d = d := by
  cases c with
  | byteRegister r =>
      cases r <;> simp_all [processes, Component.process, on]
  | wordRegister r =>
      cases r <;> simp_all [processes, Component.process, on]
  | statusBit f => simp_all [processes, Component.process, on]
  | alu =>
      simp only [processes, Bool.or_eq_false_iff] at h
      simp only [Component.process, on, h]
      rfl
  | _ => rfl

/-- A step over the components that it involves. -/
def stepOn (l : List Control) (d : Datapath) : Except SimError Datapath :=
  let w := (components.filter (writes l)).foldl (fun w c => c.write (on l) w) (d, Buses.empty)
  let d := (Component.front.filter (reads l)).foldl (fun d c => c.read (on l) w.2 d) w.1
  let finish := fun d =>
    (components.filter (processes l)).foldl (fun d c => c.process (on l) d)
      ((Component.back.filter (reads l)).foldl (fun d c => c.read (on l) w.2 d) d)
  if Control.memoryRead ∈ l then
    (d.memory.writeAt d.mar (w.2.data.getD 0)).map fun memory => finish { d with memory := memory }
  else .ok (finish d)

theorem step_on (l : List Control) (d : Datapath) : d.step (on l) = d.stepOn l := by
  have hwrite : d.drive (on l) =
      (components.filter (writes l)).foldl (fun w c => c.write (on l) w) (d, Buses.empty) :=
    foldl_eq_foldl_filter (fun w c hc => write_of_not_writes hc w) components _
  have hread : ∀ b (cs : List Component) (d : Datapath), cs.foldl (Component.read (on l) b) d =
      (cs.filter (reads l)).foldl (fun d c => Component.read (on l) b d c) d := fun b cs d =>
    foldl_eq_foldl_filter (fun d c hc => read_of_not_reads hc b d) cs d
  have hfinish : ∀ b, finish (on l) b = fun d =>
      (components.filter (processes l)).foldl (fun d c => Component.process (on l) d c)
        ((Component.back.filter (reads l)).foldl
          (fun d c => Component.read (on l) b d c) d) := by
    intro b
    funext d
    unfold finish
    rw [hread]
    exact foldl_eq_foldl_filter (fun d c hc => process_of_not_processes hc d) components _
  unfold step stepOn
  rw [hwrite]
  dsimp only
  rw [hread _ Component.front, hfinish]
  by_cases hstore : Control.memoryRead ∈ l
  · have hon : on l .memoryRead = true := decide_eq_true hstore
    rw [if_pos hstore, if_pos hon]
  · have hon : ¬on l .memoryRead = true := fun h => hstore (of_decide_eq_true h)
    rw [if_neg hstore, if_neg hon]

end Datapath

/-! ## The steps of the microcode -/

namespace Microstep

open Control ByteRegister WordRegister StatusBit
open Datapath (on step_on)

variable (d : Datapath)

theorem step_nil : d.step (on []) = .ok d := by
  rw [step_on]
  rfl

theorem step_halt : d.step (on [halt]) = .ok d := by
  rw [step_on]
  rfl

theorem step_crash : d.step (on [crash]) = .ok d := by
  rw [step_on]
  rfl

/-! ### Fetching -/

theorem step_fetchStart :
    d.step (on [pc.write, mar.read, instructionStart]) = .ok { d with mar := d.pc } := by
  rw [step_on]
  rfl

theorem step_fetchOpcode :
    d.step (on [memoryWrite, ir.read]) =
      .ok { d with ir := d.memory.byteAt d.mar, memory := d.memory.afterRead d.mar } := by
  rw [step_on]
  rfl

theorem step_pcIncrement : d.step (on [pcIncrement]) = .ok { d with pc := d.pc + 1 } := by
  rw [step_on]
  rfl

theorem step_pcToMar : d.step (on [pc.write, mar.read]) = .ok { d with mar := d.pc } := by
  rw [step_on]
  rfl

/-! ### Addressing -/

theorem step_operandLow :
    d.step (on [memoryWrite, marLow.read, pcIncrement]) =
      .ok { d with
        mar := Word.ofBytes d.mar.high (d.memory.byteAt d.mar)
        pc := d.pc + 1
        memory := d.memory.afterRead d.mar } := by
  rw [step_on]
  rfl

theorem step_operandLowSaved :
    d.step (on [memoryWrite, marLow.read, aluResult.read, pcIncrement]) =
      .ok { d with
        aluResult := d.memory.byteAt d.mar
        mar := Word.ofBytes d.mar.high (d.memory.byteAt d.mar)
        pc := d.pc + 1
        memory := d.memory.afterRead d.mar } := by
  rw [step_on]
  rfl

theorem step_operandHigh :
    d.step (on [memoryWrite, marHigh.read, pcIncrement]) =
      .ok { d with
        mar := Word.ofBytes (d.memory.byteAt d.mar) d.mar.low
        pc := d.pc + 1
        memory := d.memory.afterRead d.mar } := by
  rw [step_on]
  rfl

theorem step_pointerLow :
    d.step (on [memoryWrite, aluResult.read]) =
      .ok { d with
        aluResult := d.memory.byteAt d.mar
        memory := d.memory.afterRead d.mar } := by
  rw [step_on]
  rfl

theorem step_pointerHigh :
    d.step (on [memoryWrite, marHigh.read]) =
      .ok { d with
        mar := Word.ofBytes (d.memory.byteAt d.mar) d.mar.low
        memory := d.memory.afterRead d.mar } := by
  rw [step_on]
  rfl

theorem step_restoreLow :
    d.step (on [aluResult.write, marLow.read]) =
      .ok { d with mar := Word.ofBytes d.mar.high d.aluResult } := by
  rw [step_on]
  rfl

theorem step_resetHigh :
    d.step (on [marHigh.reset]) = .ok { d with mar := Word.ofBytes 0 d.mar.low } := by
  rw [step_on]
  rfl

theorem step_marIncrement : d.step (on [marIncrement]) = .ok { d with mar := d.mar + 1 } := by
  rw [step_on]
  rfl

theorem step_addOffset :
    d.step (on [marAddOffset]) =
      .ok { d with mar := Datapath.addOffset d.mar d.marOffset } := by
  rw [step_on]
  rfl

theorem step_offset (r : Isa.Register) :
    d.step (on [r.port.write, marOffset.read]) = .ok { d with marOffset := d.byte r.port } := by
  cases r <;> (rw [step_on]; rfl)

/-! ### The arithmetic unit -/

theorem step_lhs (r : Isa.Register) :
    d.step (on [r.port.write, aluLhs.read]) = .ok { d with aluLhs := d.byte r.port } := by
  cases r <;> (rw [step_on]; rfl)

theorem step_lhsMemory :
    d.step (on [memoryWrite, aluLhs.read]) =
      .ok { d with
        aluLhs := d.memory.byteAt d.mar
        memory := d.memory.afterRead d.mar } := by
  rw [step_on]
  rfl

theorem step_rhsMemory (immediate : Bool) :
    d.step (on ([memoryWrite, aluRhs.read] ++ if immediate then [pcIncrement] else [])) =
      .ok { d with
        aluRhs := d.memory.byteAt d.mar
        pc := if immediate then d.pc + 1 else d.pc
        memory := d.memory.afterRead d.mar } := by
  cases immediate <;> (rw [step_on]; rfl)

theorem step_binary (f : Isa.Binary) :
    d.step (on f.controls) = .ok (d.executeAlu f.code) := by
  cases f <;> (rw [step_on]; rfl)

theorem step_unary (f : Isa.Unary) :
    d.step (on f.controls) = .ok (d.executeAlu f.code) := by
  cases f <;> (rw [step_on]; rfl)

theorem step_test : d.step (on (Isa.opcodeBits 0xC)) = .ok (d.executeAlu 0xC) := by
  rw [step_on]
  rfl

theorem step_result (r : Isa.Register) :
    d.step (on [aluResult.write, r.port.read, statusAnalyzer.read]) =
      .ok ((d.setByte r.port d.aluResult).load .statusAnalyzer d.aluResult) := by
  cases r <;> (rw [step_on]; rfl)

theorem step_resultFlags :
    d.step (on [aluResult.write, statusAnalyzer.read]) =
      .ok (d.load .statusAnalyzer d.aluResult) := by
  rw [step_on]
  rfl

theorem step_resultStore :
    d.step (on [aluResult.write, memoryRead, statusAnalyzer.read]) =
      (d.memory.writeAt d.mar d.aluResult).map fun memory =>
        ({ d with memory } : Datapath).load .statusAnalyzer d.aluResult := by
  rw [step_on]
  rfl

/-! ### Loads, stores and transfers -/

theorem step_load (r : Isa.Register) (immediate : Bool) :
    d.step (on ([memoryWrite, r.port.read, statusAnalyzer.read] ++
        if immediate then [pcIncrement] else [])) =
      .ok (({ d with
        pc := if immediate then d.pc + 1 else d.pc
        memory := d.memory.afterRead d.mar }.setByte r.port (d.memory.byteAt d.mar)).load
          .statusAnalyzer (d.memory.byteAt d.mar)) := by
  cases r <;> cases immediate <;> (rw [step_on]; rfl)

theorem step_store (r : Isa.Register) :
    d.step (on [r.port.write, memoryRead]) =
      (d.memory.writeAt d.mar (d.byte r.port)).map fun memory => { d with memory } := by
  cases r <;> (rw [step_on]; rfl)

theorem step_transfer {source target : ByteRegister}
    (h : (source, target) ∈ [(a, x), (x, a), (a, y), (y, a), (sp, x)]) :
    d.step (on [source.write, target.read, statusAnalyzer.read]) =
      .ok ((d.setByte target (d.byte source)).load .statusAnalyzer (d.byte source)) := by
  simp only [List.mem_cons, List.not_mem_nil, or_false, Prod.mk.injEq] at h
  rcases h with ⟨rfl, rfl⟩ | ⟨rfl, rfl⟩ | ⟨rfl, rfl⟩ | ⟨rfl, rfl⟩ | ⟨rfl, rfl⟩ <;>
    (rw [step_on]; rfl)

theorem step_xToSp : d.step (on [x.write, sp.read]) = .ok { d with sp := d.x } := by
  rw [step_on]
  rfl

/-! ### Status bits -/

theorem step_set (f : StatusBit) : d.step (on [f.set]) = .ok (d.assignStatus f true) := by
  cases f <;> (rw [step_on]; rfl)

theorem step_clear (f : StatusBit) : d.step (on [f.clear]) = .ok (d.assignStatus f false) := by
  cases f <;> (rw [step_on]; rfl)

/-! ### The stack -/

theorem step_spIncrement : d.step (on [spIncrement]) = .ok { d with sp := d.sp + 1 } := by
  rw [step_on]
  rfl

theorem step_stackAddress :
    d.step (on [sp.write, marLow.read, marStackPage]) =
      .ok { d with mar := Word.ofBytes 1 d.sp } := by
  have h : d.step (on [sp.write, marLow.read, marStackPage]) =
      .ok { d with mar := Word.ofBytes 1 (Word.ofBytes d.mar.high d.sp).low } := by
    rw [step_on]
    rfl
  rw [h, Word.low_ofBytes]

theorem step_push {r : ByteRegister} (h : r ∈ [a, status, pcHigh, pcLow]) :
    d.step (on [r.write, memoryRead, spDecrement]) =
      (d.memory.writeAt d.mar (d.byte r)).map fun memory =>
        { d with memory, sp := d.sp - 1 } := by
  simp only [List.mem_cons, List.not_mem_nil, or_false] at h
  rcases h with rfl | rfl | rfl | rfl <;> (rw [step_on]; rfl)

theorem step_pullStatus :
    d.step (on [memoryWrite, status.read]) =
      .ok { d with
        status := d.memory.byteAt d.mar
        memory := d.memory.afterRead d.mar } := by
  rw [step_on]
  rfl

/-! ### Control transfers -/

theorem step_pullPcLow :
    d.step (on [memoryWrite, pcLow.read]) =
      .ok { d with
        pc := Word.ofBytes d.pc.high (d.memory.byteAt d.mar)
        memory := d.memory.afterRead d.mar } := by
  rw [step_on]
  rfl

theorem step_pullPcHigh :
    d.step (on [memoryWrite, pcHigh.read]) =
      .ok { d with
        pc := Word.ofBytes (d.memory.byteAt d.mar) d.pc.low
        memory := d.memory.afterRead d.mar } := by
  rw [step_on]
  rfl

theorem step_jump : d.step (on [mar.write, pc.read]) = .ok { d with pc := d.mar } := by
  rw [step_on]
  rfl

theorem step_saveTarget : d.step (on [mar.write, tmp.read]) = .ok { d with tmp := d.mar } := by
  rw [step_on]
  rfl

theorem step_jumpSaved : d.step (on [tmp.write, pc.read]) = .ok { d with pc := d.tmp } := by
  rw [step_on]
  rfl

theorem step_skip :
    d.step (on [memoryWrite, pcIncrement]) =
      .ok { d with pc := d.pc + 1, memory := d.memory.afterRead d.mar } := by
  rw [step_on]
  rfl

theorem step_branch :
    d.step (on [memoryWrite, pcIncrement, pcSignedOffset.read, pcAddSignedOffset]) =
      .ok { d with
        pcSignedOffset := d.memory.byteAt d.mar
        pc := d.pc + 1 + (d.memory.byteAt d.mar).signExtend 16
        memory := d.memory.afterRead d.mar } := by
  rw [step_on]
  rfl

theorem step_interruptVector :
    d.step (on [marInterruptVector]) = .ok { d with mar := 0xFFFE } := by
  rw [step_on]
  rfl

end Microstep

namespace Cpu

/-- The datapath does not see the interrupt line. -/
theorem step_assertedBy (cpu : Cpu) (controls : List Control) (d : Datapath) :
    d.step (cpu.assertedBy controls) = d.step (Datapath.on controls) := by
  refine Datapath.step_congr (fun e he => if_neg ?_) d
  rintro rfl
  cases he

end Cpu

end Irata2.Sim
