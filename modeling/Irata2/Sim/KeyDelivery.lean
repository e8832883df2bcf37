import Irata2.Sim.Devices
import Irata2.Sim.InterruptRuns

/-!
# Keys from the host to the program

The keyboard on the bus.  Over any run of the CPU, with the host pressing keys between the ticks,
the loads of the program get the keys that were accepted, in their order, without loss or
duplication; what is missing is still in the queue.
-/

namespace Irata2.Sim

open Hdl Library Library.Traces Microcode

/-! ## The input device as a device on the bus -/

namespace Module

def asInputDevice {size : Nat} : Module size → Option InputDevice
  | .inputDevice d => some d
  | .ram _ | .rom _ | .vectorGraphicsCoprocessor _ => none

variable {size : Nat} {m m' : Module size} {address : Word} {v : Byte} {d : InputDevice}

theorem size_of_asInputDevice (hd : m.asInputDevice = some d) : size = mmioSize := by
  cases m with
  | inputDevice d => rfl
  | ram cells | rom storage | vectorGraphicsCoprocessor d => cases hd

theorem asInputDevice_read {path : String} (hd : m.asInputDevice = some d)
    (h : m.read path address = .ok (v, m')) :
    ∃ d', d.step (.read address) = (some v, d') ∧ m'.asInputDevice = some d' := by
  cases m with
  | inputDevice d =>
      cases hd
      cases h
      exact ⟨_, rfl, rfl⟩
  | ram cells | rom storage | vectorGraphicsCoprocessor d => cases hd

theorem asInputDevice_write (hd : m.asInputDevice = some d) (h : m.write address v = .ok m') :
    ∃ d', d.step (.write address v) = (none, d') ∧ m'.asInputDevice = some d' := by
  cases m with
  | inputDevice d =>
      cases hd
      cases h
      exact ⟨_, rfl, rfl⟩
  | ram cells | rom storage | vectorGraphicsCoprocessor d => cases hd

theorem asInputDevice_host (i : HostInput) (hd : m.asInputDevice = some d) :
    ∃ d', d.step i.event = (none, d') ∧ (m.host i).asInputDevice = some d' := by
  cases m with
  | inputDevice d =>
      cases hd
      refine ⟨d.host i, ?_, rfl⟩
      cases i <;> rfl
  | ram cells | rom storage | vectorGraphicsCoprocessor d => cases hd

end Module

def DeviceKind.input : DeviceKind InputDevice where
  get := Module.asInputDevice
  step := InputDevice.step
  size_of_get := Module.size_of_asInputDevice
  read := Module.asInputDevice_read
  write := Module.asInputDevice_write
  host := Module.asInputDevice_host

/-! ## Accepted and delivered keys -/

namespace Keyboard

/-- The key that an event brings: an injected one, while fewer than sixteen are waiting. -/
def accepts (k : Keyboard) : InputEvent → List Byte
  | .injectKey keyCode => if k.pending.items.length < 16 then [keyCode] else []
  | .setKeyDown _ | .setKeyUp _ | .read _ | .write _ _ => []

/-- The key that an event takes away: what a load of the data register has got, while a key is
waiting. -/
def delivers (k : Keyboard) : InputEvent × Option Byte → List Byte
  | (.read offset, some v) =>
      if offset = InputReg.data ∧ k.pending.items ≠ [] then [v] else []
  | _ => []

def accepted : Keyboard → List (InputEvent × Option Byte) → List Byte
  | _, [] => []
  | k, e :: log => k.accepts e.1 ++ accepted (k.step e.1).2 log

def delivered : Keyboard → List (InputEvent × Option Byte) → List Byte
  | _, [] => []
  | k, e :: log => k.delivers e ++ delivered (k.step e.1).2 log

/-- One event moves a key into the queue at its end, or out of it at its front. -/
theorem pending_step {k k' : Keyboard} {e : InputEvent} {o : Option Byte}
    (h : k.step e = (o, k')) :
    k.pending.items ++ k.accepts e = k.delivers (e, o) ++ k'.pending.items := by
  cases e with
  | injectKey keyCode =>
      cases h
      show k.pending.items ++ (if _ then _ else _) = (k.pending.offer keyCode).items
      have hle := k.pending.length_le
      by_cases hfull : k.pending.items.length = 16
      · have hlt : ¬k.pending.items.length < 16 := by omega
        rw [if_neg hlt, BoundedQueue.offer_of_full hfull, List.append_nil]
      · have hlt : k.pending.items.length < 16 := by omega
        rw [if_pos hlt, BoundedQueue.items_offer hfull]
  | setKeyDown bit | setKeyUp bit =>
      cases h
      exact List.append_nil _
  | write offset value =>
      cases h
      show k.pending.items ++ [] = (if _ then _ else _ : Keyboard).pending.items
      rw [List.append_nil]
      split_ifs <;> rfl
  | read offset =>
      cases h
      show k.pending.items ++ [] =
        (if offset = InputReg.data ∧ k.pending.items ≠ [] then [k.register offset] else []) ++
          (if offset = InputReg.data then { k with pending := k.pending.rest } else k).pending.items
      rw [List.append_nil]
      by_cases hdata : offset = InputReg.data
      · subst hdata
        have hregister : k.register InputReg.data = k.pending.items.headD 0 := rfl
        rw [if_pos rfl, hregister]
        show _ = _ ++ k.pending.items.tail
        -- an empty queue has no key to give
        cases k.pending.items with
        | nil => rfl
        | cons key keys => rfl
      · rw [if_neg hdata, if_neg (fun h => hdata h.1)]
        rfl

/-- What is accepted comes out in order, or waits. -/
theorem pending_logs {k k' : Keyboard} {log : List (InputEvent × Option Byte)}
    (h : Logs step k log k') :
    k.pending.items ++ k.accepted log = k.delivered log ++ k'.pending.items := by
  induction h with
  | nil k => exact List.append_nil _
  | @cons k k' k₁ e o log hi _ ih =>
      have hnext : (k.step e).2 = k₁ := by rw [hi]
      show k.pending.items ++ (k.accepts e ++ (k.step e).2.accepted log) =
        k.delivers (e, o) ++ (k.step e).2.delivered log ++ k'.pending.items
      rw [hnext, ← List.append_assoc, pending_step hi, List.append_assoc, ih, List.append_assoc]

/-- The key of an injection. -/
def injected : InputEvent → Option Byte
  | .injectKey keyCode => some keyCode
  | .setKeyDown _ | .setKeyUp _ | .read _ | .write _ _ => none

/-- The keys that are accepted are among those that are injected, in their order. -/
theorem accepted_sublist (k : Keyboard) (log : List (InputEvent × Option Byte)) :
    (k.accepted log).Sublist (log.filterMap fun e => injected e.1) := by
  induction log generalizing k with
  | nil => exact List.Sublist.refl _
  | cons e log ih =>
      obtain ⟨event, answer⟩ := e
      have hrest := ih (k.step event).2
      show (k.accepts event ++ accepted (k.step event).2 log).Sublist _
      cases event with
      | injectKey keyCode =>
          show ((if k.pending.items.length < 16 then [keyCode] else []) ++ _ : List Byte).Sublist
            (keyCode :: log.filterMap fun e => injected e.1)
          split
          · exact hrest.cons_cons keyCode
          · exact hrest.cons keyCode
      | setKeyDown | setKeyUp | read | write => exact hrest

end Keyboard

/-! ## In a run -/

namespace Cpu

section Compiled

variable {c : Compiler} {is : InstructionSet} {p : MicrocodeProgram} {cpu cpu' : Cpu}
  {log : List BusEvent} {index : Nat} {base : Word}

/-- In a run the device stays the keyboard that has answered its traffic. -/
theorem exists_keyboard (hc : c.compile is = .ok p) (hload : cpu.Loaded p)
    (hnew : cpu.datapath.memory.device .input index base = some .new)
    (hrun : EventRun cpu log cpu') :
    ∃ d k, cpu'.datapath.memory.device .input index base = some d ∧ Refines d k ∧
      Logs Keyboard.step .new (deviceTraffic index base log) k := by
  obtain ⟨d, hd, hlogs⟩ := hrun.device hc hload hnew
  have hsimulate : ∀ {d : InputDevice} {k : Keyboard}, Refines d k → ∀ e,
      (d.step e).1 = (k.step e).1 ∧ Refines (d.step e).2 (k.step e).2 :=
    fun h e => h.step e
  obtain ⟨k, hkeyboard, hrefines⟩ := hlogs.simulate hsimulate Refines.new
  exact ⟨d, k, hd, hrefines, hkeyboard⟩

/-- In every run the program and the host deal with a keyboard: it answers every load in the window
of the device, and the keys it has accepted are those that loads have brought, then those that
wait. -/
theorem keys_of_run (hc : c.compile is = .ok p) (hload : cpu.Loaded p)
    (hnew : cpu.datapath.memory.device .input index base = some .new)
    (hrun : EventRun cpu log cpu') :
    ∃ d k, cpu'.datapath.memory.device .input index base = some d ∧ Shows d k ∧
      Logs Keyboard.step .new (deviceTraffic index base log) k ∧
      Keyboard.new.accepted (deviceTraffic index base log) =
        Keyboard.new.delivered (deviceTraffic index base log) ++ d.pending := by
  obtain ⟨d, k, hd, hrefines, hkeyboard⟩ := exists_keyboard hc hload hnew hrun
  refine ⟨d, k, hd, hrefines.shows, hkeyboard, ?_⟩
  rw [hrefines.pending]
  exact Keyboard.pending_logs hkeyboard

end Compiled

/-- A program that loads a key: LDA $4002. -/
def keyRom : List Byte := [0x50, 0x02, 0x40, 0xFF]

theorem isPowerOfTwo_keyRom : isPowerOfTwo keyRom.length = true := by decide

theorem aligned_keyRom : (0x8000 : Word).toNat % keyRom.length = 0 := by decide

def keyCartridge : Region :=
  ⟨"cartridge", 0x8000, keyRom.length, .rom keyRom.get, isPowerOfTwo_keyRom, aligned_keyRom⟩

def keyMemory : Memory :=
  ⟨[ramRegion, keyCartridge, keyboard .new], disjoint_of_firstOverlap (by rfl)⟩

/-- Its CPU, after the host has pressed two keys. -/
def keysPressed : Cpu :=
  (((initial keyMemory accumulatorMemory).setEntry 0x8000).host 2 (.injectKey 0x41)).host 2
    (.injectKey 0x42)

def keyPresses : List BusEvent := [.host 2 (.injectKey 0x41), .host 2 (.injectKey 0x42)]

theorem tickEvents_keysPressed :
    (tickEvents 9 keysPressed).map (fun r =>
      (Keyboard.new.accepted (deviceTraffic 2 0x4000 (keyPresses ++ r.1)),
        Keyboard.new.delivered (deviceTraffic 2 0x4000 (keyPresses ++ r.1)))) =
      some ([0x41, 0x42], [0x41]) := by
  decide +kernel

/-- Two keys are pressed and the first of them is loaded. -/
theorem keys_of_run_pressed : ∃ cpu cpu' log d,
    Cpu.new accumulatorProgram keyRom [keyboard .new] = .ok cpu ∧
      EventRun (cpu.setEntry 0x8000) log cpu' ∧
      cpu'.datapath.memory.device .input 2 0x4000 = some d ∧
      Keyboard.new.delivered (deviceTraffic 2 0x4000 log) = [0x41] ∧ d.pending = [0x42] := by
  have hcartridge : newCartridgeRegion keyRom = .ok keyCartridge := by rfl
  have hmemory : Memory.new [ramRegion, keyCartridge, keyboard .new] = .ok keyMemory := by rfl
  have hnew := new_accumulator hcartridge hmemory
  have hdevice : ((initial keyMemory accumulatorMemory).setEntry
      0x8000).datapath.memory.device .input 2 0x4000 = some .new := by
    rfl
  obtain ⟨⟨events, cpu'⟩, hticks, hkeys⟩ := Option.map_eq_some_iff.mp tickEvents_keysPressed
  obtain ⟨haccepted, hdelivered⟩ := Prod.mk.inj hkeys
  -- the host presses two keys, and the program loads DATA once
  have hpresses : EventRun ((initial keyMemory accumulatorMemory).setEntry 0x8000) keyPresses
      keysPressed :=
    (Trace.single (EventStep.host _ 2 (.injectKey 0x41))).trans
      (Trace.single (EventStep.host _ 2 (.injectKey 0x42)))
  have hrun := hpresses.trans (eventRun_tickEvents hticks)
  obtain ⟨d, -, hd, -, -, hqueue⟩ := keys_of_run compile_accumulatorSet
    (loaded_setEntry (loaded_new hnew) 0x8000) hdevice hrun
  rw [haccepted, hdelivered] at hqueue
  exact ⟨_, cpu', _, d, hnew, hrun, hd, hdelivered, (List.cons.inj hqueue).2.symm⟩

end Cpu

end Irata2.Sim
