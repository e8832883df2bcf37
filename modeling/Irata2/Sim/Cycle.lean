import Irata2.Library.StateRun
import Irata2.Sim.Cpu

/-!
# The effect of one set of controls

Between two Clear phases a tick is a function of the asserted controls: the buses carry what the
asserted writers drive, the asserted readers load it, and the Process phase updates the registers
in visiting order.  `Datapath.step` is that function; the phases of a component refine it.
-/

namespace Irata2.Sim

open Hdl Library StateRun

/-- What the buses carry in one tick. -/
structure Buses where
  data : Option Byte
  address : Option Word

namespace Buses

def empty : Buses := ⟨none, none⟩

def has (b : Buses) : BusType → Bool
  | .data => b.data.isSome
  | .address => b.address.isSome

end Buses

namespace Component

/-- The components that act on the datapath, up to the memory. -/
def front : List Component :=
  [.byteRegister .a, .byteRegister .x, .byteRegister .y, .byteRegister .sp, .wordRegister .tmp,
    .alu, .byteRegister .aluLhs, .byteRegister .aluRhs, .byteRegister .aluResult,
    .wordRegister .pc, .byteRegister .pcLow, .byteRegister .pcHigh, .byteRegister .pcSignedOffset,
    .byteRegister .status, .statusBit .negative, .statusBit .overflow, .statusBit .unused,
    .statusBit .brk, .statusBit .decimal, .statusBit .interruptDisable, .statusBit .zero,
    .statusBit .carry, .byteRegister .statusAnalyzer, .byteRegister .ir]

/-- The components that act on the datapath, after the memory. -/
def back : List Component :=
  [.wordRegister .mar, .byteRegister .marLow, .byteRegister .marHigh, .byteRegister .marOffset]

def isActive : Component → Bool
  | byteRegister _ | wordRegister _ | alu | statusBit _ | memory => true
  | control _ | dataBus | addressBus | controller | sc | ipc => false

/-- The control under which the component drives a bus. -/
def writeControl : Component → Option Control
  | byteRegister r => some r.write
  | wordRegister r => some r.write
  | memory => some .memoryWrite
  | _ => none

/-- The control under which the component loads from a bus. -/
def readControl : Component → Option Control
  | byteRegister r => some r.read
  | wordRegister r => some r.read
  | memory => some .memoryRead
  | _ => none

variable (cs : Control → Bool)

def drives (bus : BusType) (c : Component) : Bool :=
  c.writeControl.any fun w => cs w && w.bus == some bus

def senses (bus : BusType) (c : Component) : Bool :=
  c.readControl.any fun r => cs r && r.bus == some bus

/-! ## One phase of one component -/

def write (w : Datapath × Buses) : Component → Datapath × Buses
  | byteRegister r =>
      if cs r.write then (w.1, { w.2 with data := some (w.1.byte r) }) else w
  | wordRegister r =>
      if cs r.write then (w.1, { w.2 with address := some (w.1.word r) }) else w
  | memory =>
      if cs .memoryWrite then
        ({ w.1 with memory := w.1.memory.afterRead w.1.mar },
          { w.2 with data := some (w.1.memory.byteAt w.1.mar) })
      else w
  | _ => w

/-- The Read phase of every component but the memory. -/
def read (b : Buses) (d : Datapath) : Component → Datapath
  | byteRegister r => if cs r.read then d.load r (b.data.getD 0) else d
  | wordRegister r => if cs r.read then d.setWord r (b.address.getD 0) else d
  | _ => d

def process (d : Datapath) : Component → Datapath
  | byteRegister .sp =>
      if cs ByteRegister.sp.reset then { d with sp := 0 }
      else if cs .spIncrement then { d with sp := d.sp + 1 }
      else if cs .spDecrement then { d with sp := d.sp - 1 }
      else d
  | byteRegister r => if cs r.reset then d.setByte r 0 else d
  | wordRegister .tmp => if cs WordRegister.tmp.reset then { d with tmp := 0 } else d
  | wordRegister .pc =>
      if cs WordRegister.pc.reset then { d with pc := 0 }
      else
        let d := if cs .pcIncrement then { d with pc := d.pc + 1 } else d
        if cs .pcAddSignedOffset then d.addSignedOffset else d
  | wordRegister .mar =>
      let d := if cs .marInterruptVector then { d with mar := 0xFFFE } else d
      let d := if cs .marStackPage then d.setByte .marHigh 0x01 else d
      let d := if cs .marIncrement then { d with mar := d.mar + 1 } else d
      if cs .marAddOffset then { d with mar := Datapath.addOffset d.mar d.marOffset } else d
  | alu =>
      d.executeAlu
        (Alu.opcode (cs (.aluOpcodeBit 0)) (cs (.aluOpcodeBit 1)) (cs (.aluOpcodeBit 2))
          (cs (.aluOpcodeBit 3)))
  | statusBit f => if cs f.set || cs f.clear then d.assignStatus f (cs f.set) else d
  | _ => d

/-- The Process phase of the controller's own registers. -/
def processController (d : Datapath) (k : Controller) : Component → Controller
  | controller => if cs .instructionStart then { k with ipc := d.pc } else k
  | byteRegister .ir =>
      if cs ByteRegister.ir.reset then { k with injectInterrupt := false }
      else if cs .instructionStart then
        { k with injectInterrupt := cs .irqLine && !Status.value .interruptDisable d.status }
      else k
  | sc =>
      if cs .scReset then { k with sc := 0 }
      else if cs .scIncrement then { k with sc := k.sc + 1 }
      else if cs .scDecrement then { k with sc := k.sc - 1 }
      else k
  | ipc => if cs .ipcLatch then { k with ipc := d.pc } else k
  | _ => k

end Component

/-! ## One tick of the datapath -/

namespace Datapath

open Component

variable (cs : Control → Bool)

def components : List Component := front ++ .memory :: back

/-- The Write phase. -/
def drive (d : Datapath) : Datapath × Buses := components.foldl (write cs) (d, Buses.empty)

/-- The rest of a tick once the memory has been visited in the Read phase. -/
def finish (b : Buses) (d : Datapath) : Datapath :=
  components.foldl (process cs) (back.foldl (Component.read cs b) d)

/-- The datapath and the buses when the Read phase reaches the memory. -/
def untilStore (d : Datapath) : Datapath × Buses :=
  let w := d.drive cs
  (front.foldl (Component.read cs w.2) w.1, w.2)

/-- A tick under the asserted controls; only a store to the memory can fail. -/
def step (d : Datapath) : Except SimError Datapath :=
  let w := d.drive cs
  let d := front.foldl (Component.read cs w.2) w.1
  if cs .memoryRead then
    (d.memory.writeAt d.mar (w.2.data.getD 0)).map fun memory =>
      finish cs w.2 { d with memory := memory }
  else .ok (finish cs w.2 d)

end Datapath

/-- The controller's registers after a tick, from the datapath after it. -/
def Controller.next (cs : Control → Bool) (d : Datapath) (k : Controller) : Controller :=
  { k with
    injectInterrupt :=
      if cs ByteRegister.ir.reset then false
      else if cs .instructionStart then
        cs .irqLine && !Status.value .interruptDisable d.status
      else k.injectInterrupt
    sc :=
      if cs .scReset then 0
      else if cs .scIncrement then k.sc + 1
      else if cs .scDecrement then k.sc - 1
      else k.sc
    ipc := if cs .instructionStart || cs .ipcLatch then d.pc else k.ipc }

/-! ## The components refine their effect -/

namespace SimM

theorem ensurePhase_eq {cpu : Cpu} {phase : TickPhase} (h : cpu.currentPhase = phase)
    (action : ControlAction) (c : Control) : ensurePhase phase action c cpu = .ok () cpu := by
  show (if cpu.currentPhase ≠ phase then _ else _ : SimM PUnit) cpu = _
  rw [if_neg (not_not.mpr h)]
  rfl

theorem asserted_eq {cpu : Cpu} {c : Control} (h : cpu.currentPhase = c.phase) :
    asserted c cpu = .ok (cpu.asserted c) cpu := by
  unfold asserted
  rw [bind_of_ok (ensurePhase_eq h .read c)]
  rfl

/-- Branching on a control in its phase. -/
theorem ite_asserted {α : Type} {cpu : Cpu} {c : Control} (h : cpu.currentPhase = c.phase)
    (x y : SimM α) :
    (asserted c >>= fun b => if b = true then x else y) cpu =
      if cpu.asserted c = true then x cpu else y cpu := by
  rw [bind_of_ok (asserted_eq h)]
  by_cases hc : cpu.asserted c = true
  · rw [if_pos hc, if_pos hc]
  · rw [if_neg hc, if_neg hc]

theorem whenAsserted_of_true {cpu : Cpu} {c : Control} (hp : cpu.currentPhase = c.phase)
    (h : cpu.asserted c = true) (x : SimM Unit) : whenAsserted c x cpu = x cpu :=
  (ite_asserted hp x (pure ())).trans (if_pos h)

theorem whenAsserted_of_false {cpu : Cpu} {c : Control} (hp : cpu.currentPhase = c.phase)
    (h : ¬cpu.asserted c = true) (x : SimM Unit) : whenAsserted c x cpu = .ok () cpu :=
  (ite_asserted hp x (pure ())).trans (if_neg h)

theorem assertControl_eq {cpu : Cpu} (h : cpu.currentPhase = .control) (c : Control) :
    assertControl c cpu =
      .ok () { cpu with asserted := Function.update cpu.asserted c true } := by
  unfold assertControl
  rw [bind_of_ok (ensurePhase_eq h .assert c)]
  rfl

theorem setControl_eq {cpu : Cpu} (h : cpu.currentPhase = .control) (c : Control) (v : Bool) :
    setControl c v cpu = .ok () { cpu with asserted := Function.update cpu.asserted c v } := by
  unfold setControl
  rw [bind_of_ok (ensurePhase_eq h .set c)]
  rfl

end SimM

def Bus.of {α : Type} (value : Option α) : Bus α := ⟨value, value.isSome⟩

/-- The CPU with a datapath and the contents of the buses. -/
def Cpu.onBuses (cpu : Cpu) (w : Datapath × Buses) : Cpu :=
  { cpu with datapath := w.1, dataBus := Bus.of w.2.data, addressBus := Bus.of w.2.address }

/-- The CPU with a datapath and the registers of the controller. -/
def Cpu.onRegisters (cpu : Cpu) (s : Datapath × Controller) : Cpu :=
  { cpu with datapath := s.1, controller := s.2 }

namespace Component

open SimM

theorem isSome_eq_false {α : Type} {o : Option α} (h : o.isSome = false) : o = none :=
  Option.isNone_iff_eq_none.mp (Option.isSome_eq_false_iff.mp h)

theorem writeDataBus_eq {cpu : Cpu} {w : Datapath × Buses} (hp : cpu.currentPhase = .write)
    (hfree : w.2.has .data = false) (v : Byte) :
    writeDataBus v (cpu.onBuses w) =
      .ok () (cpu.onBuses (w.1, { w.2 with data := some v })) := by
  have hbus : (cpu.onBuses w).dataBus.write .data (cpu.onBuses w).currentPhase v =
      .ok (Bus.of (some v)) := by
    show (Bus.of w.2.data).write .data cpu.currentPhase v = _
    rw [isSome_eq_false hfree, hp]
    rfl
  show (MonadExcept.ofExcept _ >>= fun bus => set _ : SimM PUnit) _ = _
  rw [bind_of_ok (ofExcept_ok hbus _)]
  rfl

theorem writeAddressBus_eq {cpu : Cpu} {w : Datapath × Buses} (hp : cpu.currentPhase = .write)
    (hfree : w.2.has .address = false) (v : Word) :
    writeAddressBus v (cpu.onBuses w) =
      .ok () (cpu.onBuses (w.1, { w.2 with address := some v })) := by
  have hbus : (cpu.onBuses w).addressBus.write .address (cpu.onBuses w).currentPhase v =
      .ok (Bus.of (some v)) := by
    show (Bus.of w.2.address).write .address cpu.currentPhase v = _
    rw [isSome_eq_false hfree, hp]
    rfl
  show (MonadExcept.ofExcept _ >>= fun bus => set _ : SimM PUnit) _ = _
  rw [bind_of_ok (ofExcept_ok hbus _)]
  rfl

theorem readMemory_eq (cpu : Cpu) (w : Datapath × Buses) :
    readMemory (cpu.onBuses w) =
      .ok (w.1.memory.byteAt w.1.mar)
        (cpu.onBuses ({ w.1 with memory := w.1.memory.afterRead w.1.mar }, w.2)) :=
  bind_of_ok (ofExcept_ok (w.1.memory.readAt_eq w.1.mar) (cpu.onBuses w))

/-- The Write phase of a component, when the bus it drives is free. -/
theorem tickWrite_eq {cpu : Cpu} (hp : cpu.currentPhase = .write) (w : Datapath × Buses)
    (c : Component) (hfree : ∀ bus, c.drives cpu.asserted bus = true → w.2.has bus = false) :
    c.tickWrite (cpu.onBuses w) = .ok () (cpu.onBuses (c.write cpu.asserted w)) := by
  cases c with
  | byteRegister r =>
      by_cases hw : cpu.asserted r.write = true
      · have hb := hfree .data (by simp [drives, writeControl, hw]; rfl)
        rw [write, if_pos hw]
        exact (@whenAsserted_of_true (cpu.onBuses w) r.write hp hw _).trans
          (writeDataBus_eq hp hb _)
      · rw [write, if_neg hw]
        exact @whenAsserted_of_false (cpu.onBuses w) r.write hp hw _
  | wordRegister r =>
      by_cases hw : cpu.asserted r.write = true
      · have hb := hfree .address (by simp [drives, writeControl, hw]; rfl)
        rw [write, if_pos hw]
        exact (@whenAsserted_of_true (cpu.onBuses w) r.write hp hw _).trans
          (writeAddressBus_eq hp hb _)
      · rw [write, if_neg hw]
        exact @whenAsserted_of_false (cpu.onBuses w) r.write hp hw _
  | memory =>
      by_cases hw : cpu.asserted .memoryWrite = true
      · have hb := hfree .data (by simp [drives, writeControl, hw]; rfl)
        rw [write, if_pos hw]
        refine (@whenAsserted_of_true (cpu.onBuses w) .memoryWrite hp hw _).trans ?_
        refine (bind_of_ok (readMemory_eq cpu w)).trans ?_
        exact @writeDataBus_eq cpu ({ w.1 with memory := w.1.memory.afterRead w.1.mar }, w.2) hp
          hb _
      · rw [write, if_neg hw]
        exact @whenAsserted_of_false (cpu.onBuses w) .memoryWrite hp hw _
  | _ => rfl

theorem write_of_not_isActive (cs : Control → Bool) (w : Datapath × Buses) (c : Component)
    (h : c.isActive = false) : c.write cs w = w := by
  cases c <;> first | rfl | cases h

theorem has_write (cs : Control → Bool) (w : Datapath × Buses) (c : Component) (bus : BusType) :
    (c.write cs w).2.has bus = (w.2.has bus || c.drives cs bus) := by
  cases c with
  | byteRegister r =>
      unfold write drives writeControl
      cases h : cs r.write <;> cases bus <;> simp [h, Buses.has, Control.bus]
  | wordRegister r =>
      unfold write drives writeControl
      cases h : cs r.write <;> cases bus <;> simp [h, Buses.has, Control.bus]
  | memory =>
      unfold write drives writeControl
      cases h : cs .memoryWrite <;> cases bus <;> simp [h, Buses.has, Control.bus]
  | _ => exact (Bool.or_false _).symm

theorem has_foldl_write (cs : Control → Bool) (l : List Component) (w : Datapath × Buses)
    (bus : BusType) :
    (l.foldl (fun w c => c.write cs w) w).2.has bus =
      (w.2.has bus || l.any fun c => c.drives cs bus) := by
  induction l generalizing w with
  | nil => exact (Bool.or_false _).symm
  | cons c l ih => rw [List.foldl_cons, ih, has_write, List.any_cons, Bool.or_assoc]

/-- The Write phase of a list of components of which at most one drives each bus. -/
theorem forM_tickWrite {cpu : Cpu} (hp : cpu.currentPhase = .write) (w : Datapath × Buses)
    (l : List Component)
    (h : ∀ bus, (w.2.has bus).toNat + l.countP (drives cpu.asserted bus) ≤ 1) :
    l.forM tickWrite (cpu.onBuses w) =
      .ok () (cpu.onBuses (l.foldl (fun w c => c.write cpu.asserted w) w)) := by
  refine forM_of_foldl cpu.onBuses (P := fun l w =>
    ∀ bus, (w.2.has bus).toNat + l.countP (drives cpu.asserted bus) ≤ 1) ?_ l w h
  intro c l w h
  refine ⟨tickWrite_eq hp w c fun bus hd => ?_, fun bus => ?_⟩
  · have hb := h bus
    rw [List.countP_cons_of_pos hd] at hb
    cases hh : w.2.has bus with
    | false => rfl
    | true =>
        rw [hh] at hb
        change 1 + _ ≤ 1 at hb
        omega
  · have hb := h bus
    rw [has_write]
    cases hd : c.drives cpu.asserted bus with
    | false =>
        rw [List.countP_cons_of_neg (by rw [hd]; decide)] at hb
        rw [Bool.or_false]
        exact hb
    | true =>
        rw [List.countP_cons_of_pos hd] at hb
        rw [Bool.or_true]
        change 1 + _ ≤ 1
        omega

/-! ## Read -/

theorem readDataBus_eq {cpu : Cpu} {w : Datapath × Buses} (hp : cpu.currentPhase = .read)
    (hb : w.2.has .data = true) (reader : String) :
    readDataBus reader (cpu.onBuses w) = .ok (w.2.data.getD 0) (cpu.onBuses w) := by
  rcases Option.isSome_iff_exists.mp hb with ⟨v, hv⟩
  have hbus : (Bus.of w.2.data).read .data cpu.currentPhase reader = .ok (w.2.data.getD 0) := by
    rw [hv, hp]
    rfl
  exact ofExcept_ok hbus _

theorem readAddressBus_eq {cpu : Cpu} {w : Datapath × Buses} (hp : cpu.currentPhase = .read)
    (hb : w.2.has .address = true) (reader : String) :
    readAddressBus reader (cpu.onBuses w) = .ok (w.2.address.getD 0) (cpu.onBuses w) := by
  rcases Option.isSome_iff_exists.mp hb with ⟨v, hv⟩
  have hbus : (Bus.of w.2.address).read .address cpu.currentPhase reader =
      .ok (w.2.address.getD 0) := by
    rw [hv, hp]
    rfl
  exact ofExcept_ok hbus _

/-- The Read phase of a register, when the bus it loads from has been written. -/
theorem tickRead_eq {cpu : Cpu} (hp : cpu.currentPhase = .read) (d : Datapath) (b : Buses)
    (c : Component) (hc : c ≠ .memory)
    (hb : ∀ bus, c.senses cpu.asserted bus = true → b.has bus = true) :
    c.tickRead (cpu.onBuses (d, b)) = .ok () (cpu.onBuses (c.read cpu.asserted b d, b)) := by
  cases c with
  | byteRegister r =>
      by_cases hr : cpu.asserted r.read = true
      · have hdata := hb .data (by simp [senses, readControl, hr]; rfl)
        rw [read, if_pos hr]
        exact (@whenAsserted_of_true (cpu.onBuses (d, b)) r.read hp hr _).trans
          (bind_of_ok (@readDataBus_eq cpu (d, b) hp hdata _))
      · rw [read, if_neg hr]
        exact @whenAsserted_of_false (cpu.onBuses (d, b)) r.read hp hr _
  | wordRegister r =>
      by_cases hr : cpu.asserted r.read = true
      · have haddress := hb .address (by simp [senses, readControl, hr]; rfl)
        rw [read, if_pos hr]
        exact (@whenAsserted_of_true (cpu.onBuses (d, b)) r.read hp hr _).trans
          (bind_of_ok (@readAddressBus_eq cpu (d, b) hp haddress _))
      · rw [read, if_neg hr]
        exact @whenAsserted_of_false (cpu.onBuses (d, b)) r.read hp hr _
  | memory => exact absurd rfl hc
  | _ => rfl

/-- The Read phase of the memory stores the byte on the data bus, and fails as the store does. -/
theorem tickRead_memory {cpu : Cpu} (hp : cpu.currentPhase = .read) (d : Datapath) (b : Buses)
    (hb : ∀ bus, memory.senses cpu.asserted bus = true → b.has bus = true) :
    memory.tickRead (cpu.onBuses (d, b)) =
      if cpu.asserted .memoryRead = true then
        match d.memory.writeAt d.mar (b.data.getD 0) with
        | .ok m => .ok () (cpu.onBuses ({ d with memory := m }, b))
        | .error e => .error e (cpu.onBuses (d, b))
      else .ok () (cpu.onBuses (d, b)) := by
  by_cases hr : cpu.asserted .memoryRead = true
  · have hdata := hb .data (by simp [senses, readControl, hr]; rfl)
    rw [if_pos hr]
    refine (@whenAsserted_of_true (cpu.onBuses (d, b)) .memoryRead hp hr _).trans ?_
    refine (bind_of_ok (@readDataBus_eq cpu (d, b) hp hdata _)).trans ?_
    have hget : (get : SimM Cpu) (cpu.onBuses (d, b)) =
        .ok (cpu.onBuses (d, b)) (cpu.onBuses (d, b)) := rfl
    refine (bind_of_ok hget).trans ?_
    cases hw : d.memory.writeAt d.mar (b.data.getD 0) with
    | ok m => exact bind_of_ok (ofExcept_ok hw _)
    | error e => exact bind_of_error (ofExcept_error hw _)
  · rw [if_neg hr]
    exact @whenAsserted_of_false (cpu.onBuses (d, b)) .memoryRead hp hr _

theorem forM_tickRead {cpu : Cpu} (hp : cpu.currentPhase = .read) (d : Datapath) (b : Buses)
    (l : List Component) (hl : ∀ c ∈ l, c ≠ .memory)
    (hb : ∀ c ∈ l, ∀ bus, c.senses cpu.asserted bus = true → b.has bus = true) :
    l.forM tickRead (cpu.onBuses (d, b)) =
      .ok () (cpu.onBuses (l.foldl (fun d c => c.read cpu.asserted b d) d, b)) := by
  refine forM_of_foldl (fun d => cpu.onBuses (d, b)) (P := fun l _ =>
    (∀ c ∈ l, c ≠ .memory) ∧
      ∀ c ∈ l, ∀ bus, c.senses cpu.asserted bus = true → b.has bus = true) ?_ l d ⟨hl, hb⟩
  intro c l d h
  refine ⟨tickRead_eq hp d b c (h.1 c List.mem_cons_self) (h.2 c List.mem_cons_self), ?_, ?_⟩
  · exact fun c hc => h.1 c (List.mem_cons_of_mem _ hc)
  · exact fun c hc => h.2 c (List.mem_cons_of_mem _ hc)

theorem read_of_not_isActive (cs : Control → Bool) (b : Buses) (d : Datapath) (c : Component)
    (h : c.isActive = false) : c.read cs b d = d := by
  cases c <;> first | rfl | cases h

/-! ## Process -/

theorem process_of_not_isActive (cs : Control → Bool) (d : Datapath) (c : Component)
    (h : c.isActive = false) : c.process cs d = d := by
  cases c <;> first | rfl | cases h

/-- Applying a function to the datapath under a control. -/
theorem whenAsserted_datapath {cpu : Cpu} (hp : cpu.currentPhase = .process) {c : Control}
    (hc : c.phase = .process) (f : Datapath → Datapath) (s : Datapath × Controller) :
    whenAsserted c (modifyDatapath f) (cpu.onRegisters s) =
      .ok () (cpu.onRegisters (if cpu.asserted c = true then f s.1 else s.1, s.2)) := by
  by_cases h : cpu.asserted c = true
  · rw [if_pos h]
    exact @whenAsserted_of_true (cpu.onRegisters s) c (hp.trans hc.symm) h _
  · rw [if_neg h]
    exact @whenAsserted_of_false (cpu.onRegisters s) c (hp.trans hc.symm) h _

/-- Applying a function to the controller under a control. -/
theorem whenAsserted_controller {cpu : Cpu} (hp : cpu.currentPhase = .process) {c : Control}
    (hc : c.phase = .process) {x : SimM Unit} {f : Controller → Controller}
    {s : Datapath × Controller}
    (hx : x (cpu.onRegisters s) = .ok () (cpu.onRegisters (s.1, f s.2))) :
    whenAsserted c x (cpu.onRegisters s) =
      .ok () (cpu.onRegisters (s.1, if cpu.asserted c = true then f s.2 else s.2)) := by
  by_cases h : cpu.asserted c = true
  · rw [if_pos h]
    exact (@whenAsserted_of_true (cpu.onRegisters s) c (hp.trans hc.symm) h _).trans hx
  · rw [if_neg h]
    exact @whenAsserted_of_false (cpu.onRegisters s) c (hp.trans hc.symm) h _

theorem processSp_eq {cpu : Cpu} (hp : cpu.currentPhase = .process) (s : Datapath × Controller) :
    processSp (cpu.onRegisters s) =
      .ok () (cpu.onRegisters ((byteRegister .sp).process cpu.asserted s.1, s.2)) := by
  refine (@ite_asserted _ (cpu.onRegisters s) ByteRegister.sp.reset hp _ _).trans ?_
  rw [process]
  by_cases h₁ : cpu.asserted ByteRegister.sp.reset = true
  · rw [if_pos h₁]
    exact if_pos h₁
  · rw [if_neg h₁]
    refine (if_neg h₁).trans ((@ite_asserted _ (cpu.onRegisters s) .spIncrement hp _ _).trans ?_)
    by_cases h₂ : cpu.asserted .spIncrement = true
    · rw [if_pos h₂]
      exact if_pos h₂
    · rw [if_neg h₂]
      exact (if_neg h₂).trans (@whenAsserted_datapath cpu hp .spDecrement rfl _ s)

theorem processPc_eq {cpu : Cpu} (hp : cpu.currentPhase = .process) (s : Datapath × Controller) :
    processPc (cpu.onRegisters s) =
      .ok () (cpu.onRegisters ((wordRegister .pc).process cpu.asserted s.1, s.2)) := by
  refine (@ite_asserted _ (cpu.onRegisters s) WordRegister.pc.reset hp _ _).trans ?_
  rw [process]
  by_cases h₁ : cpu.asserted WordRegister.pc.reset = true
  · rw [if_pos h₁]
    exact if_pos h₁
  · rw [if_neg h₁]
    refine (if_neg h₁).trans ?_
    refine (bind_of_ok (@whenAsserted_datapath cpu hp .pcIncrement rfl _ s)).trans ?_
    exact @whenAsserted_datapath cpu hp .pcAddSignedOffset rfl _ _

theorem processMar_eq {cpu : Cpu} (hp : cpu.currentPhase = .process) (s : Datapath × Controller) :
    processMar (cpu.onRegisters s) =
      .ok () (cpu.onRegisters ((wordRegister .mar).process cpu.asserted s.1, s.2)) := by
  refine (bind_of_ok (@whenAsserted_datapath cpu hp .marInterruptVector rfl _ s)).trans ?_
  refine (bind_of_ok (@whenAsserted_datapath cpu hp .marStackPage rfl _ _)).trans ?_
  refine (bind_of_ok (@whenAsserted_datapath cpu hp .marIncrement rfl _ _)).trans ?_
  exact @whenAsserted_datapath cpu hp .marAddOffset rfl _ _

theorem processAlu_eq {cpu : Cpu} (hp : cpu.currentPhase = .process)
    (s : Datapath × Controller) :
    processAlu (cpu.onRegisters s) =
      .ok () (cpu.onRegisters (alu.process cpu.asserted s.1, s.2)) := by
  have hbit : ∀ i, asserted (.aluOpcodeBit i) (cpu.onRegisters s) =
      .ok (cpu.asserted (.aluOpcodeBit i)) (cpu.onRegisters s) :=
    fun i => @asserted_eq (cpu.onRegisters s) (.aluOpcodeBit i) hp
  refine (bind_of_ok (hbit 0)).trans ?_
  refine (bind_of_ok (hbit 1)).trans ?_
  refine (bind_of_ok (hbit 2)).trans ?_
  exact bind_of_ok (hbit 3)

theorem processStatusBit_eq {cpu : Cpu} (hp : cpu.currentPhase = .process) (f : StatusBit)
    (s : Datapath × Controller) :
    processStatusBit f (cpu.onRegisters s) =
      .ok () (cpu.onRegisters ((statusBit f).process cpu.asserted s.1, s.2)) := by
  refine (bind_of_ok (@asserted_eq (cpu.onRegisters s) f.set hp)).trans ?_
  refine (bind_of_ok (@asserted_eq (cpu.onRegisters s) f.clear hp)).trans ?_
  rw [process]
  show (if (cpu.asserted f.set || cpu.asserted f.clear) = true then _ else _ : SimM Unit) _ = _
  by_cases h : (cpu.asserted f.set || cpu.asserted f.clear) = true
  · rw [if_pos h, if_pos h]
    rfl
  · rw [if_neg h, if_neg h]
    rfl

theorem processSc_eq {cpu : Cpu} (hp : cpu.currentPhase = .process) (s : Datapath × Controller) :
    processSc (cpu.onRegisters s) =
      .ok () (cpu.onRegisters (s.1, sc.processController cpu.asserted s.1 s.2)) := by
  refine (@ite_asserted _ (cpu.onRegisters s) .scReset hp _ _).trans ?_
  rw [processController]
  by_cases h₁ : cpu.asserted .scReset = true
  · rw [if_pos h₁]
    exact if_pos h₁
  · rw [if_neg h₁]
    refine (if_neg h₁).trans ((@ite_asserted _ (cpu.onRegisters s) .scIncrement hp _ _).trans ?_)
    by_cases h₂ : cpu.asserted .scIncrement = true
    · rw [if_pos h₂]
      exact if_pos h₂
    · rw [if_neg h₂]
      exact (if_neg h₂).trans
        (@whenAsserted_controller cpu hp .scDecrement rfl _ (fun k => { k with sc := k.sc - 1 }) s
          rfl)

theorem processIr_eq {cpu : Cpu} (hp : cpu.currentPhase = .process) (s : Datapath × Controller) :
    processIr (cpu.onRegisters s) =
      .ok () (cpu.onRegisters ((byteRegister .ir).process cpu.asserted s.1,
        (byteRegister .ir).processController cpu.asserted s.1 s.2)) := by
  refine (bind_of_ok (@whenAsserted_datapath cpu hp ByteRegister.ir.reset rfl _ s)).trans ?_
  refine (@ite_asserted _ (cpu.onRegisters _) ByteRegister.ir.reset hp _ _).trans ?_
  rw [process, processController]
  · by_cases h₁ : cpu.asserted ByteRegister.ir.reset = true
    · rw [if_pos h₁, if_pos h₁]
      exact if_pos h₁
    · rw [if_neg h₁, if_neg h₁]
      refine (if_neg h₁).trans ?_
      by_cases h₂ : cpu.asserted .instructionStart = true
      · rw [if_pos h₂]
        refine (@whenAsserted_of_true (cpu.onRegisters s) .instructionStart hp h₂ _).trans ?_
        exact bind_of_ok (@asserted_eq (cpu.onRegisters s) .irqLine hp)
      · rw [if_neg h₂]
        exact @whenAsserted_of_false (cpu.onRegisters s) .instructionStart hp h₂ _
  · exact ByteRegister.noConfusion

/-- The Process phase of a component. -/
theorem tickProcess_eq {cpu : Cpu} (hp : cpu.currentPhase = .process) (s : Datapath × Controller)
    (c : Component) :
    c.tickProcess (cpu.onRegisters s) =
      .ok () (cpu.onRegisters
        (c.process cpu.asserted s.1, c.processController cpu.asserted s.1 s.2)) := by
  cases c with
  | byteRegister r =>
      cases r with
      | sp => exact processSp_eq hp s
      | ir => exact processIr_eq hp s
      | a | x | y | aluLhs | aluRhs | aluResult | pcLow | pcHigh | pcSignedOffset | status
      | statusAnalyzer | marLow | marHigh | marOffset =>
          exact @whenAsserted_datapath cpu hp (.resetByte _) rfl _ s
  | wordRegister r =>
      cases r with
      | pc => exact processPc_eq hp s
      | mar => exact processMar_eq hp s
      | tmp => exact @whenAsserted_datapath cpu hp (.resetWord .tmp) rfl _ s
  | alu => exact processAlu_eq hp s
  | statusBit f => exact processStatusBit_eq hp f s
  | controller =>
      exact @whenAsserted_controller cpu hp .instructionStart rfl _
        (fun k => { k with ipc := s.1.pc }) s rfl
  | sc => exact processSc_eq hp s
  | ipc =>
      exact @whenAsserted_controller cpu hp .ipcLatch rfl _
        (fun k => { k with ipc := s.1.pc }) s rfl
  | _ => rfl

end Component

end Irata2.Sim
