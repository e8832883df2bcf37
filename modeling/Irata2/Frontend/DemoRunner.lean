import Irata2.Sim.Cartridge
import Irata2.Sim.InstructionTrace
import Irata2.Sim.KeyDelivery
import Irata2.Sim.RunUntilHalt
import Irata2.Sim.Screen

/-!
# The demo runner

Frame after frame the runner hands the events of the window to the keyboard and runs the CPU for a
fixed number of cycles.  Over a whole session the program reads what was typed, in order, and the
backend is given the drawing commands that the program stored.
-/

namespace Irata2.Frontend

open Library Library.Traces Microcode Sim

/-! ## Keys and events of the window -/

/-- The key codes that the runner tells apart. -/
inductive Key
  | up
  | down
  | left
  | right
  | space
  | ret
  | escape
  | digit (d : Fin 10)
  | letter (l : Fin 26)
  | other
  deriving DecidableEq, Repr

inductive Event
  | keyDown (key : Key) (isRepeat : Bool)
  | keyUp (key : Key)
  | quit
  | other
  deriving DecidableEq, Repr

/-- `MapKey`; letters are typed in upper case. -/
def mapKey : Key → Byte
  | .up => 0x01
  | .down => 0x02
  | .left => 0x03
  | .right => 0x04
  | .space => 0x20
  | .ret => 0x0D
  | .escape => 0x1B
  | .digit d => 0x30 + BitVec.ofNat 8 d.val
  | .letter l => 0x41 + BitVec.ofNat 8 l.val
  | .other => 0x00

def mapKeyToState : Key → Byte
  | .up => 0x01
  | .down => 0x02
  | .left => 0x04
  | .right => 0x08
  | .space => 0x10
  | .escape => 0x20
  | .ret | .digit _ | .letter _ | .other => 0

/-- `HandleEvent`: what the input device is given. -/
def handleEvent : Event → List HostInput
  | .keyDown key isRepeat =>
      (if mapKeyToState key ≠ 0 then [.setKeyDown (mapKeyToState key)] else []) ++
        if !isRepeat && mapKey key != 0x00 then [.injectKey (mapKey key)] else []
  | .keyUp key => if mapKeyToState key ≠ 0 then [.setKeyUp (mapKeyToState key)] else []
  | .quit | .other => []

/-- The code that an event types: a key that is pressed, not one that is held. -/
def typed : Event → Option Byte
  | .keyDown key false => if mapKey key = 0x00 then none else some (mapKey key)
  | .keyDown _ true | .keyUp _ | .quit | .other => none

/-- The codes of a frame; the events behind a quit are left in the queue of the window. -/
def typedKeys (events : List Event) : List Byte := (events.takeWhile (· ≠ .quit)).filterMap typed

/-! ## The runner -/

structure DemoOptions where
  fps : Int := 30
  scale : Int := 2
  cyclesPerFrame : Int := 0
  traceSize : Nat := 0

inductive DemoError
  | invalidOptions
  | sim (e : SimError)

structure DemoRunner where
  cyclesPerFrame : BitVec 64
  cpu : Cpu

def inputRegion : Region :=
  ⟨"input_device", 0x4000, mmioSize, .inputDevice .new, isPowerOfTwo_mmio, Cpu.aligned_keyboard⟩

/-- The input device is the third region, behind the RAM and the cartridge. -/
def inputIndex : Nat := 2

def vgcIndex : Nat := 3

def resetCpu (cpu : Cpu) (entry : Word) : Cpu :=
  { cpu.setEntry entry with controller := { cpu.controller with sc := 0 } }

namespace DemoRunner

/-- The constructor on a cartridge that has been loaded. -/
def new (options : DemoOptions) (cartridge : LoadedCartridge) : Except DemoError DemoRunner :=
  let cycles :=
    if options.cyclesPerFrame ≤ 0 ∧ 0 < options.fps then 100000 / options.fps
    else options.cyclesPerFrame
  if options.fps ≤ 0 ∨ options.scale ≤ 0 then .error .invalidOptions
  else
    match Cpu.new Irata.program cartridge.rom [inputRegion, Cpu.vgcRegion] with
    | .error e => .error (.sim e)
    | .ok cpu =>
        let cpu := resetCpu cpu cartridge.header.entry
        .ok ⟨BitVec.ofInt 64 cycles,
          if 0 < options.traceSize then cpu.enableTrace options.traceSize else cpu⟩

def handle (cpu : Cpu) (inputs : List HostInput) : Cpu :=
  inputs.foldl (fun cpu input => cpu.host inputIndex input) cpu

/-- The inner loop of `Run`, on the events that are waiting: whether there was no quit, and the
CPU. -/
def pollEvents (cpu : Cpu) : List Event → Bool × Cpu
  | [] => (true, cpu)
  | e :: events =>
      if e = .quit then (false, cpu) else pollEvents (handle cpu (handleEvent e)) events

/-- A round of the outer loop, and whether another one follows. -/
def frame (runner : DemoRunner) (events : List Event) : Except SimError (Bool × DemoRunner) :=
  match Cpu.runUntilHalt runner.cyclesPerFrame false (pollEvents runner.cpu events).2 with
  | .error e _ => .error e
  | .ok _ cpu =>
      .ok ((pollEvents runner.cpu events).1 && !cpu.halted, { runner with cpu := cpu })

/-- `Run` up to some round: the events of its frames, whether it still goes on, and the runner. -/
inductive Session (runner : DemoRunner) : List (List Event) → Bool → DemoRunner → Prop
  | start : Session runner [] true runner
  | frame {frames : List (List Event)} {s t : DemoRunner} {running : Bool}
      (h : Session runner frames true s) (events : List Event)
      (hf : s.frame events = .ok (running, t)) : Session runner (frames ++ [events]) running t

/-- What `Run` returns. -/
def exitCode (runner : DemoRunner) : Nat := if runner.cpu.crashed then 2 else 0

end DemoRunner

/-! ## The events of a frame -/

/-- The key that an event on the bus types. -/
def typedAt (index : Nat) : BusEvent → Option Byte
  | .host i (.injectKey keyCode) => if i = index then some keyCode else none
  | .host _ (.setKeyDown _) | .host _ (.setKeyUp _) | .load _ _ | .store _ _ => none

theorem filterMap_handleEvent (e : Event) :
    ((handleEvent e).map (.host inputIndex)).filterMap (typedAt inputIndex) = (typed e).toList := by
  cases e with
  | keyUp key =>
      show ((if _ then _ else _ : List HostInput).map _).filterMap _ = []
      split <;> rfl
  | quit | other => rfl
  | keyDown key isRepeat =>
      unfold handleEvent
      rw [List.map_append, List.filterMap_append]
      have hstate : ((if mapKeyToState key ≠ 0 then [HostInput.setKeyDown (mapKeyToState key)]
          else []).map (BusEvent.host inputIndex)).filterMap (typedAt inputIndex) = [] := by
        split <;> rfl
      rw [hstate, List.nil_append]
      cases isRepeat with
      | true => rfl
      | false =>
          show ((if (mapKey key != 0x00) = true then _ else _ : List HostInput).map _).filterMap _ =
            (if mapKey key = 0x00 then none else some (mapKey key)).toList
          by_cases hzero : mapKey key = 0x00
          · rw [if_pos hzero, hzero]
            rfl
          · rw [if_neg hzero, if_pos (bne_iff_ne.mpr hzero)]
            rfl

open DemoRunner

theorem eventRun_handle (cpu : Cpu) (inputs : List HostInput) :
    Cpu.EventRun cpu (inputs.map (.host inputIndex)) (handle cpu inputs) := by
  induction inputs generalizing cpu with
  | nil => exact .refl
  | cons input inputs ih =>
      have hfirst : Cpu.EventRun cpu [.host inputIndex input] (cpu.host inputIndex input) :=
        .single (.host cpu inputIndex input)
      exact hfirst.trans (ih _)

/-- The events of the window come in as they are typed. -/
theorem exists_eventRun_pollEvents (cpu : Cpu) (events : List Event) :
    ∃ log, Cpu.EventRun cpu log (pollEvents cpu events).2 ∧
      log.filterMap (typedAt inputIndex) = typedKeys events := by
  induction events generalizing cpu with
  | nil => exact ⟨[], .refl, rfl⟩
  | cons e events ih =>
      unfold pollEvents typedKeys
      by_cases hquit : e = .quit
      · rw [if_pos hquit, List.takeWhile_cons_of_neg (by simpa using hquit)]
        exact ⟨[], .refl, rfl⟩
      · obtain ⟨log, hrun, hlog⟩ := ih (handle cpu (handleEvent e))
        rw [if_neg hquit, List.takeWhile_cons_of_pos (by simpa using hquit)]
        refine ⟨_, (eventRun_handle cpu (handleEvent e)).trans hrun, ?_⟩
        rw [List.filterMap_append, filterMap_handleEvent, hlog]
        cases he : typed e with
        | none => rw [List.filterMap_cons_none he]; rfl
        | some key => rw [List.filterMap_cons_some he]; rfl

theorem filterMap_events (cpu : Cpu) (index : Nat) : cpu.events.filterMap (typedAt index) = [] := by
  unfold Cpu.events
  split
  · rfl
  · split
    · unfold Datapath.events
      rw [List.filterMap_append]
      split <;> split <;> rfl
    · rfl

/-- Ticks type nothing. -/
theorem exists_eventRun_ticks {n : Nat} {cpu t : Cpu} (h : Cpu.ticks n cpu = .ok () t)
    (index : Nat) : ∃ log, Cpu.EventRun cpu log t ∧ log.filterMap (typedAt index) = [] := by
  induction n generalizing cpu with
  | zero =>
      cases h
      exact ⟨[], .refl, rfl⟩
  | succ n ih =>
      cases ht : Cpu.tick cpu with
      | error e s =>
          change (Cpu.tick >>= fun _ => Cpu.ticks n) cpu = _ at h
          rw [StateRun.bind_of_error ht] at h
          cases h
      | ok u s =>
          rw [Cpu.ticks_succ ht] at h
          obtain ⟨log, hrun, hlog⟩ := ih h
          have hfirst : Cpu.EventRun cpu cpu.events s := .single (.tick ht)
          refine ⟨_, hfirst.trans hrun, ?_⟩
          rw [List.filterMap_append, filterMap_events, hlog]
          rfl

namespace DemoRunner

variable {runner s t : DemoRunner} {frames : List (List Event)} {running : Bool}

theorem frame_of_ok {events : List Event} {result : Cpu.RunResult} {u : Cpu}
    (h : Cpu.runUntilHalt runner.cyclesPerFrame false (pollEvents runner.cpu events).2 =
      .ok result u) :
    runner.frame events =
      .ok ((pollEvents runner.cpu events).1 && !u.halted, ⟨runner.cyclesPerFrame, u⟩) := by
  unfold frame
  rw [h]

/-- What a frame does. -/
theorem frame_eq_ok (hload : runner.cpu.Loaded Irata.program) {events : List Event}
    (h : runner.frame events = .ok (running, t)) :
    t.cyclesPerFrame = runner.cyclesPerFrame ∧
      running = ((pollEvents runner.cpu events).1 && !t.cpu.halted) ∧
      Cpu.ticks runner.cyclesPerFrame.toNat (pollEvents runner.cpu events).2 = .ok () t.cpu := by
  obtain ⟨log, hpoll, -⟩ := exists_eventRun_pollEvents runner.cpu events
  have hloaded : (pollEvents runner.cpu events).2.Loaded Irata.program :=
    Cpu.loaded_run Irata.compile_instructionSet hload (Cpu.EventRun.run hpoll)
  cases hrun : Cpu.runUntilHalt runner.cyclesPerFrame false (pollEvents runner.cpu events).2 with
  | error e u =>
      unfold frame at h
      rw [hrun] at h
      cases h
  | ok result u =>
      rw [frame_of_ok hrun] at h
      cases h
      exact ⟨rfl, rfl, ((Cpu.runUntilHalt_eq_ok hloaded).mp hrun).1⟩

/-- The events of the frames come to the keyboard as they are typed. -/
theorem Session.exists_eventRun (hload : runner.cpu.Loaded Irata.program)
    (h : Session runner frames running t) :
    ∃ log, Cpu.EventRun runner.cpu log t.cpu ∧
      log.filterMap (typedAt inputIndex) = frames.flatMap typedKeys := by
  induction h with
  | start => exact ⟨[], .refl, rfl⟩
  | @frame frames s t running _ events hf ih =>
      obtain ⟨log, hrun, hlog⟩ := ih
      have hs := Cpu.loaded_run Irata.compile_instructionSet hload (Cpu.EventRun.run hrun)
      obtain ⟨-, -, hticks⟩ := frame_eq_ok hs hf
      obtain ⟨polled, hpoll, hkeys⟩ := exists_eventRun_pollEvents s.cpu events
      obtain ⟨ticked, htick, hnone⟩ := exists_eventRun_ticks hticks inputIndex
      refine ⟨_, hrun.trans (hpoll.trans htick), ?_⟩
      rw [List.filterMap_append, List.filterMap_append, hlog, hkeys, hnone, List.append_nil,
        List.flatMap_append, List.flatMap_singleton]

/-! ## Time -/

theorem cycleCount_handle (cpu : Cpu) (inputs : List HostInput) :
    (handle cpu inputs).cycleCount = cpu.cycleCount := by
  induction inputs generalizing cpu with
  | nil => rfl
  | cons input inputs ih => exact ih (cpu.host inputIndex input)

theorem cycleCount_pollEvents (cpu : Cpu) (events : List Event) :
    (pollEvents cpu events).2.cycleCount = cpu.cycleCount := by
  induction events generalizing cpu with
  | nil => rfl
  | cons e events ih =>
      unfold pollEvents
      split
      · rfl
      · rw [ih, cycleCount_handle]

/-- A session that goes on has run every frame to its end. -/
theorem Session.cycleCount (hload : runner.cpu.Loaded Irata.program)
    (h : Session runner frames running t) (hgoes : running = true) :
    t.cyclesPerFrame = runner.cyclesPerFrame ∧ t.cpu.cycleCount =
      runner.cpu.cycleCount + BitVec.ofNat 64 (frames.length * runner.cyclesPerFrame.toNat) := by
  induction h with
  | start =>
      refine ⟨rfl, ?_⟩
      rw [List.length_nil, Nat.zero_mul]
      exact (BitVec.add_zero _).symm
  | @frame frames s t running hs events hf ih =>
      obtain ⟨hcycles, hcount⟩ := ih rfl
      obtain ⟨log, hrun, -⟩ := hs.exists_eventRun hload
      have hloaded := Cpu.loaded_run Irata.compile_instructionSet hload (Cpu.EventRun.run hrun)
      obtain ⟨hsame, hnot, hticks⟩ := frame_eq_ok hloaded hf
      obtain ⟨polled, hpoll, -⟩ := exists_eventRun_pollEvents s.cpu events
      have hhalted : t.cpu.halted = false := by
        rw [hgoes] at hnot
        simpa using (Bool.and_eq_true_iff.mp hnot.symm).2
      -- a CPU that had halted on the way would be halted at the end
      have hrunning : ∀ m < s.cyclesPerFrame.toNat, ∀ u,
          Cpu.ticks m (pollEvents s.cpu events).2 = .ok () u → u.halted = false := by
        intro m hm u hu
        rw [← Bool.not_eq_true]
        intro hh
        obtain ⟨k, hk⟩ := Nat.exists_eq_add_of_le hm.le
        rw [hk, Cpu.ticks_add hu, Cpu.ticks_of_halted hh] at hticks
        cases hticks
        rw [hh] at hhalted
        cases hhalted
      refine ⟨hsame.trans hcycles, ?_⟩
      rw [Cpu.cycleCount_of_ticks
        (Cpu.loaded_run Irata.compile_instructionSet hloaded (Cpu.EventRun.run hpoll)) hrunning hticks,
        cycleCount_pollEvents, hcount, hcycles, BitVec.add_assoc, ← BitVec.ofNat_add,
        List.length_append, List.length_singleton, Nat.add_mul, Nat.one_mul]

/-! ## Startup -/

variable {options : DemoOptions} {cartridge : LoadedCartridge}

/-- A device that reads do not change is there after the reset as it was before. -/
theorem device_resetCpu {D : Type} {k : DeviceKind D} {cpu : Cpu} {index : Nat} {base : Word}
    {d : D} (hstay : ∀ offset, (k.step d (.read offset)).2 = d)
    (hd : cpu.datapath.memory.device k index base = some d) (entry : Word) :
    (resetCpu cpu entry).datapath.memory.device k index base = some d := by
  obtain ⟨d', hd', hlogs⟩ := Memory.device_afterRead entry hd
  show (cpu.datapath.memory.afterRead entry).device k index base = some d
  rw [hd']
  unfold deviceTraffic at hlogs
  by_cases hregister : isRegister base entry = true
  · have hpick : BusEvent.toDevice index base (.load entry (cpu.datapath.memory.byteAt entry)) =
        some (.read (entry - base), some (cpu.datapath.memory.byteAt entry)) :=
      if_pos hregister
    rw [List.filterMap_cons_some hpick] at hlogs
    cases hlogs with
    | cons hstep hrest =>
        cases hrest
        have hsame := hstay (entry - base)
        rw [hstep] at hsame
        exact congrArg some hsame
  · have hpick : BusEvent.toDevice index base (.load entry (cpu.datapath.memory.byteAt entry)) =
        none :=
      if_neg hregister
    rw [List.filterMap_cons_none hpick] at hlogs
    cases hlogs
    rfl

theorem device_of_new {cartridgeRom : List Byte} {cpu : Cpu}
    (h : Cpu.new Irata.program cartridgeRom [inputRegion, Cpu.vgcRegion] = .ok cpu) :
    cpu.datapath.memory.device .input inputIndex 0x4000 = some .new ∧
      cpu.datapath.memory.device .vgc vgcIndex 0x4100 = some .new ∧ cpu.cycleCount = 0 := by
  obtain ⟨ram, -, h⟩ := bind_eq_ok.mp h
  obtain ⟨region, -, h⟩ := bind_eq_ok.mp h
  obtain ⟨memory, hm, h⟩ := bind_eq_ok.mp h
  obtain ⟨instructionMemory, -, h⟩ := bind_eq_ok.mp h
  cases h
  unfold Memory.new at hm
  split at hm
  · cases hm
  · cases hm
    exact ⟨rfl, rfl, rfl⟩

theorem loaded_resetCpu {cpu : Cpu} (h : cpu.Loaded Irata.program) (entry : Word) :
    (resetCpu cpu entry).Loaded Irata.program :=
  ⟨⟨h.idle.asserted, h.idle.dataBus, h.idle.addressBus⟩, h.instructionMemory⟩

/-- What the constructor makes of its CPU; the trace is no part of the machine. -/
theorem new_eq_ok (h : DemoRunner.new options cartridge = .ok runner) :
    ∃ cpu, Cpu.new Irata.program cartridge.rom [inputRegion, Cpu.vgcRegion] = .ok cpu ∧
      ∃ trace, runner.cpu = { resetCpu cpu cartridge.header.entry with trace := trace } := by
  unfold DemoRunner.new at h
  dsimp only at h
  split at h
  · cases h
  · cases hnew : Cpu.new Irata.program cartridge.rom [inputRegion, Cpu.vgcRegion] with
    | error e =>
        rw [hnew] at h
        cases h
    | ok cpu =>
        rw [hnew] at h
        cases h
        refine ⟨cpu, rfl, ?_⟩
        dsimp only
        split
        · exact ⟨⟨options.traceSize, []⟩, rfl⟩
        · exact ⟨(resetCpu cpu cartridge.header.entry).trace, rfl⟩

/-- The runner starts with a loaded CPU and two fresh devices. -/
theorem starts_of_new (h : DemoRunner.new options cartridge = .ok runner) :
    runner.cpu.Loaded Irata.program ∧ runner.cpu.cycleCount = 0 ∧
      runner.cpu.datapath.memory.device .input inputIndex 0x4000 = some .new ∧
      runner.cpu.datapath.memory.device .vgc vgcIndex 0x4100 = some .new := by
  obtain ⟨cpu, hnew, trace, heq⟩ := new_eq_ok h
  obtain ⟨hinput, hvgc, hcount⟩ := device_of_new hnew
  have hload := loaded_resetCpu (Cpu.loaded_new hnew) cartridge.header.entry
  have hkeys : ∀ offset, (DeviceKind.input.step .new (.read offset)).2 = .new := by
    intro offset
    show (InputDevice.new.read offset).2 = .new
    unfold InputDevice.read
    split_ifs <;> rfl
  rw [heq]
  exact ⟨⟨⟨hload.idle.asserted, hload.idle.dataBus, hload.idle.addressBus⟩,
    hload.instructionMemory⟩, hcount, device_resetCpu hkeys hinput _,
    device_resetCpu (fun _ => rfl) hvgc _⟩

/-! ## A session -/

/-- What is injected into the device is what is typed. -/
theorem filterMap_deviceTraffic (index : Nat) (base : Word) (log : List BusEvent) :
    (deviceTraffic index base log).filterMap (fun e => Keyboard.injected e.1) =
      log.filterMap (typedAt index) := by
  unfold deviceTraffic
  rw [List.filterMap_filterMap]
  congr 1
  funext e
  cases e with
  | load address value | store address value =>
      show Option.bind (if isRegister base address then _ else none) _ = none
      split <;> rfl
  | host i input =>
      show Option.bind (if i = index then some (input.event, none) else none) _ = _
      by_cases hi : i = index
      · rw [if_pos hi]
        cases input with
        | injectKey keyCode => exact (if_pos hi).symm
        | setKeyDown | setKeyUp => rfl
      · rw [if_neg hi]
        cases input with
        | injectKey keyCode => exact (if_neg hi).symm
        | setKeyDown | setKeyUp => rfl

/-- In every session the keys that are typed, and no others, are injected into the input device in
their order; those that it has accepted have been taken by the program or are still queued; the
backend is given the drawing commands that the program stores; and a session that goes on has run
every frame for its number of cycles. -/
theorem session_of_new (hnew : DemoRunner.new options cartridge = .ok runner)
    (h : Session runner frames running t) :
    ∃ log d v, Cpu.EventRun runner.cpu log t.cpu ∧
      log.filterMap (typedAt inputIndex) = frames.flatMap typedKeys ∧
      t.cpu.datapath.memory.device .input inputIndex 0x4000 = some d ∧
      t.cpu.datapath.memory.device .vgc vgcIndex 0x4100 = some v ∧
      (Keyboard.new.accepted (deviceTraffic inputIndex 0x4000 log)).Sublist
        (frames.flatMap typedKeys) ∧
      Keyboard.new.accepted (deviceTraffic inputIndex 0x4000 log) =
        Keyboard.new.delivered (deviceTraffic inputIndex 0x4000 log) ++ d.pending ∧
      v.calls = display (VectorGraphicsCoprocessor.registerWrites
        (deviceTraffic vgcIndex 0x4100 log)) ∧
      (running = true →
        t.cpu.cycleCount = BitVec.ofNat 64 (frames.length * runner.cyclesPerFrame.toNat)) := by
  obtain ⟨hload, hzero, hinput, hvgc⟩ := starts_of_new hnew
  obtain ⟨log, hrun, htyped⟩ := h.exists_eventRun hload
  obtain ⟨d, k, hd, hrefines, hkeyboard⟩ :=
    Cpu.exists_keyboard Irata.compile_instructionSet hload hinput hrun
  obtain ⟨v, hv, hseen⟩ := Cpu.exists_seen Irata.compile_instructionSet hload hvgc hrun
  refine ⟨log, d, v, hrun, htyped, hd, hv, ?_, ?_, hseen.calls, ?_⟩
  · rw [← htyped, ← filterMap_deviceTraffic inputIndex 0x4000 log]
    exact Keyboard.accepted_sublist .new _
  · rw [hrefines.pending]
    exact Keyboard.pending_logs hkeyboard
  · intro hgoes
    rw [(h.cycleCount hload hgoes).2, hzero]
    exact BitVec.zero_add _

/-- An image of one NOP. -/
def nopCartridge : LoadedCartridge := ⟨{ romSize := 1 }, [0x02]⟩

theorem isPowerOfTwo_nopRom : isPowerOfTwo nopCartridge.rom.length = true := by decide

theorem aligned_nopRom : (0x8000 : Word).toNat % nopCartridge.rom.length = 0 := by decide

def nopRegion : Region :=
  ⟨"cartridge", 0x8000, nopCartridge.rom.length, .rom nopCartridge.rom.get, isPowerOfTwo_nopRom,
    aligned_nopRom⟩

def nopMemory : Memory :=
  ⟨[Cpu.ramRegion, nopRegion, inputRegion, Cpu.vgcRegion], disjoint_of_firstOverlap (by rfl)⟩

/-- One frame of one cycle, in which the key `A` is pressed. -/
theorem session_of_new_pressed : ∃ runner t log d,
    DemoRunner.new { cyclesPerFrame := 1 } nopCartridge = .ok runner ∧
      Session runner [[.keyDown (.letter 0) false]] true t ∧
      log.filterMap (typedAt inputIndex) = [0x41] ∧
      t.cpu.datapath.memory.device .input inputIndex 0x4000 = some d ∧
      (Keyboard.new.accepted (deviceTraffic inputIndex 0x4000 log)).Sublist [0x41] ∧
      Keyboard.new.accepted (deviceTraffic inputIndex 0x4000 log) =
        Keyboard.new.delivered (deviceTraffic inputIndex 0x4000 log) ++ d.pending ∧
      t.cpu.cycleCount = 1 := by
  obtain ⟨m, hm⟩ := Cpu.exists_instructionMemory
  have hcpu : Cpu.new Irata.program nopCartridge.rom [inputRegion, Cpu.vgcRegion] =
      .ok (Cpu.initial nopMemory m) := by
    have hram : Cpu.newRamRegion = .ok Cpu.ramRegion := by rfl
    have hregion : Cpu.newCartridgeRegion nopCartridge.rom = .ok nopRegion := by rfl
    have hmemory : Memory.new [Cpu.ramRegion, nopRegion, inputRegion, Cpu.vgcRegion] =
        .ok nopMemory := by rfl
    unfold Cpu.new
    rw [hram, hregion, Component.controlOrder_eq]
    exact bind_eq_ok.mpr ⟨_, rfl, bind_eq_ok.mpr ⟨_, rfl, bind_eq_ok.mpr ⟨_, hmemory,
      bind_eq_ok.mpr ⟨m, hm, rfl⟩⟩⟩⟩
  have hnew : DemoRunner.new { cyclesPerFrame := 1 } nopCartridge =
      .ok ⟨1, resetCpu (Cpu.initial nopMemory m) 0x8000⟩ := by
    unfold DemoRunner.new
    rw [hcpu]
    rfl
  -- the CPU is at the NOP when the first frame starts
  have hb : ((resetCpu (Cpu.initial nopMemory m) 0x8000).host inputIndex
      (.injectKey 0x41)).AtBoundary :=
    ⟨Cpu.loaded_host (loaded_resetCpu (Cpu.loaded_new hcpu) 0x8000) _ _, rfl, rfl, Cpu.exists_nop,
      Memory.lowRam_host (Memory.lowRam_afterRead (Cpu.lowRam_new hcpu) _) _ _⟩
  obtain ⟨u, htick, -⟩ := Cpu.exists_start hb
  have hticks : Cpu.ticks 1 ((resetCpu (Cpu.initial nopMemory m) 0x8000).host inputIndex
      (.injectKey 0x41)) = .ok () u :=
    Cpu.ticks_succ htick 0
  have hrunning : u.halted = false := by
    obtain ⟨i, hi, hop⟩ := Cpu.exists_nop
    have hbyte : ((resetCpu (Cpu.initial nopMemory m) 0x8000).host inputIndex
        (.injectKey 0x41)).datapath.memory.byteAt 0x8000 = 0x02 := by rfl
    have hnext : ((resetCpu (Cpu.initial nopMemory m) 0x8000).host inputIndex
        (.injectKey 0x41)).nextOpcode = i.opcode :=
      (Cpu.nextOpcode_of_not_taken rfl).trans (hbyte.trans hop)
    exact Cpu.running_inside hb hi hnext (Nat.lt_add_right _ (by decide)) hticks
  have hframe : (DemoRunner.mk 1 (resetCpu (Cpu.initial nopMemory m) 0x8000)).frame
      [.keyDown (.letter 0) false] = .ok (true, ⟨1, u⟩) := by
    have hrun : (DemoRunner.mk 1 (resetCpu (Cpu.initial nopMemory m) 0x8000)).frame
        [.keyDown (.letter 0) false] = .ok (true && !u.halted, ⟨1, u⟩) :=
      frame_of_ok ((Cpu.runUntilHalt_eq_ok hb.loaded).mpr ⟨hticks, rfl⟩)
    rw [hrunning] at hrun
    exact hrun
  have hsession : Session ⟨1, resetCpu (Cpu.initial nopMemory m) 0x8000⟩
      ([] ++ [[.keyDown (.letter 0) false]]) true ⟨1, u⟩ :=
    Session.start.frame _ hframe
  obtain ⟨log, d, -, -, htyped, hd, -, haccepted, hkeys, -, hcount⟩ := session_of_new hnew hsession
  exact ⟨_, _, log, d, hnew, hsession, htyped, hd, haccepted, hkeys, hcount rfl⟩

end DemoRunner

end Irata2.Frontend
