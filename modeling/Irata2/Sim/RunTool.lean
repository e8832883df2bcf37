import Irata2.Sim.Cartridge
import Irata2.Sim.DebugSymbols
import Irata2.Sim.InstructionTrace
import Irata2.Sim.RunUntilHalt

/-!
# The run tool

The tool loads a cartridge file into a CPU without devices, starts it at the entry of the file and
reports with its exit code how the run has ended.  Unless a sidecar of debug symbols was asked for
and does not load, the exit code is what the interpreter of the instruction set says of the image in
the file.
-/

namespace Irata2.Sim

open Hdl Isa Library Microcode StateRun

/-! ## Memories without devices -/

namespace Module

/-- A RAM or a ROM. -/
def isStorage {size : Nat} : Module size → Bool
  | .ram _ | .rom _ => true
  | .inputDevice _ | .vectorGraphicsCoprocessor _ => false

/-- Reading a RAM or a ROM leaves it as it was. -/
theorem read_of_isStorage {size : Nat} {m m' : Module size} {path : String} {address : Word}
    {v : Byte} (h : m.isStorage = true) (hr : m.read path address = .ok (v, m')) : m' = m := by
  cases m with
  | ram cells =>
      change (if h : address.toNat < size then Except.ok (cells ⟨address.toNat, h⟩, Module.ram cells)
        else .error _) = _ at hr
      by_cases hlt : address.toNat < size
      · rw [dif_pos hlt] at hr
        cases hr
        rfl
      · rw [dif_neg hlt] at hr
        cases hr
  | rom storage =>
      change (if h : address.toNat < size then
        Except.ok (storage ⟨address.toNat, h⟩, Module.rom storage) else .error _) = _ at hr
      by_cases hlt : address.toNat < size
      · rw [dif_pos hlt] at hr
        cases hr
        rfl
      · rw [dif_neg hlt] at hr
        cases hr
  | inputDevice d => cases h
  | vectorGraphicsCoprocessor d => cases h

end Module

/-- Without devices reading leaves the memory as it was. -/
theorem Memory.afterRead_of_isStorage {m : Memory}
    (h : ∀ r ∈ m.regions, r.module.isStorage = true) (address : Word) :
    m.afterRead address = m := by
  have hread := m.readRegions_eq address
  apply Memory.ext
  generalize (m.afterRead address).regions = rs' at hread
  generalize m.byteAt address = v at hread
  generalize m.regions = rs at h hread
  induction rs generalizing rs' with
  | nil =>
      cases hread
      rfl
  | cons r rs ih =>
      obtain ⟨-, r', hr, rfl⟩ | ⟨-, rs'', hr, rfl⟩ := readRegions_cons hread
      · -- the region answers, and stays as it was
        unfold Region.read at hr
        split at hr
        · cases hm : r.module.read r.path (r.translate address) with
          | error e =>
              rw [hm] at hr
              cases hr
          | ok a =>
              rw [hm] at hr
              obtain ⟨v, m⟩ := a
              cases Module.read_of_isStorage (h r List.mem_cons_self) hm
              cases hr
              rfl
        · cases hr
      · rw [ih _ (fun s hs => h s (List.mem_cons_of_mem _ hs)) hr]

namespace Arch

/-- The architecture before the first instruction. -/
def boot (memory : Memory) (entry : Word) : Arch :=
  { a := 0, x := 0, y := 0, sp := 0, pc := entry, status := 0, memory }

end Arch

/-! ## Startup -/

namespace Cpu

/-- What a CPU without devices is built from. -/
theorem new_eq_ok {program : MicrocodeProgram} {cartridgeRom : List Byte} {cpu : Cpu} :
    Cpu.new program cartridgeRom [] = .ok cpu ↔
      ∃ cartridge memory m, newCartridgeRegion cartridgeRom = .ok cartridge ∧
        Memory.new [ramRegion, cartridge] = .ok memory ∧
        InstructionMemory.new cpuControls program = .ok m ∧ cpu = initial memory m := by
  have hram : newRamRegion = .ok ramRegion := by rfl
  unfold Cpu.new
  rw [hram, Component.controlOrder_eq]
  constructor
  · intro h
    obtain ⟨ram, hr, h⟩ := bind_eq_ok.mp h
    cases hr
    obtain ⟨cartridge, hcartridge, h⟩ := bind_eq_ok.mp h
    obtain ⟨memory, hmem, h⟩ := bind_eq_ok.mp h
    obtain ⟨m, hm, h⟩ := bind_eq_ok.mp h
    cases h
    exact ⟨cartridge, memory, m, hcartridge, hmem, hm, rfl⟩
  · rintro ⟨cartridge, memory, m, hcartridge, hmem, hm, rfl⟩
    exact bind_eq_ok.mpr ⟨_, rfl, bind_eq_ok.mpr ⟨_, hcartridge, bind_eq_ok.mpr ⟨memory, hmem,
      bind_eq_ok.mpr ⟨m, hm, rfl⟩⟩⟩⟩

theorem isStorage_cartridge {cartridgeRom : List Byte} {cartridge : Region}
    (h : newCartridgeRegion cartridgeRom = .ok cartridge) : cartridge.module.isStorage = true := by
  have hregion : ∀ {size : Nat} {storage : Fin size → Byte} {r : Region},
      Region.new "cartridge" 0x8000 (.rom storage) = .ok r → r.module.isStorage = true := by
    intro size storage r hr
    unfold Region.new at hr
    split at hr
    · split at hr
      · cases hr
        rfl
      · cases hr
    · cases hr
  unfold newCartridgeRegion at h
  split at h
  · obtain ⟨rom, hrom, h⟩ := bind_eq_ok.mp h
    have hempty : Module.newRom 0x8000 0xFF = .ok (.rom fun _ => 0xFF) := by rfl
    cases hrom.symm.trans hempty
    exact hregion h
  · obtain ⟨rom, hrom, h⟩ := bind_eq_ok.mp h
    unfold Module.newRomFromData at hrom
    split at hrom
    · cases hrom
    · cases hrom
      exact hregion h

/-- A tool that starts a CPU without devices starts it where the interpreter starts. -/
theorem arch_setEntry {cartridgeRom : List Byte} {cartridge : Region} {memory : Memory}
    (hcartridge : newCartridgeRegion cartridgeRom = .ok cartridge)
    (hmem : Memory.new [ramRegion, cartridge] = .ok memory) (m : InstructionMemory)
    (entry : Word) : ((initial memory m).setEntry entry).datapath.arch = Arch.boot memory entry := by
  have hstorage : ∀ r ∈ memory.regions, r.module.isStorage = true := by
    unfold Memory.new at hmem
    split at hmem
    · cases hmem
    · cases hmem
      intro r hr
      obtain rfl | hr := List.mem_cons.mp hr
      · rfl
      · cases List.mem_singleton.mp hr
        exact isStorage_cartridge hcartridge
  show Arch.mk _ _ _ _ _ _ (memory.afterRead entry) = _
  rw [Memory.afterRead_of_isStorage hstorage]
  rfl

theorem loaded_trace {program : MicrocodeProgram} {cpu : Cpu} (h : cpu.Loaded program)
    (trace : DebugTraceBuffer) : ({ cpu with trace := trace } : Cpu).Loaded program :=
  ⟨⟨h.idle.asserted, h.idle.dataBus, h.idle.addressBus⟩, h.instructionMemory⟩

/-- The tool's CPU halts exactly when the interpreter does, whatever byte the entry points at and
whatever is traced. -/
theorem haltsAfter_boot_iff {cartridgeRom : List Byte} {cartridge : Region} {memory : Memory}
    (hcartridge : newCartridgeRegion cartridgeRom = .ok cartridge)
    (hmem : Memory.new [ramRegion, cartridge] = .ok memory) {m : InstructionMemory}
    (hm : InstructionMemory.new cpuControls Irata.program = .ok m) (entry : Word)
    (trace : DebugTraceBuffer) {n : Nat} {r : HaltReason} {s : Arch} :
    (∃ t, HaltsAfter n { (initial memory m).setEntry entry with trace := trace } t ∧
        t.stopped = r ∧ t.datapath.arch = s) ↔
      ∃ fuel, (Arch.boot memory entry).interpret fuel = some (n, r, s) := by
  have hnew : Cpu.new Irata.program cartridgeRom [] = .ok (initial memory m) :=
    new_eq_ok.mpr ⟨cartridge, memory, m, hcartridge, hmem, hm, rfl⟩
  have hload := loaded_trace (loaded_setEntry (loaded_new hnew) entry) trace
  have harch : ({ (initial memory m).setEntry entry with trace := trace } : Cpu).datapath.arch =
      Arch.boot memory entry := arch_setEntry hcartridge hmem m entry
  rw [← harch]
  by_cases hop : ∃ i ∈ Isa.instructions, memory.byteAt entry = i.opcode
  · -- a known opcode: the CPU is at an instruction boundary
    apply haltsAfter_iff_interpret
    have hlow : ((initial memory m).setEntry entry).datapath.memory.LowRam :=
      Memory.lowRam_afterRead (lowRam_new hnew) entry
    exact ⟨⟨hload, rfl, rfl, hop, hlow⟩, fun _ => rfl, rfl⟩
  · -- the byte at the entry is no opcode: both get stuck
    have hunknown : ∀ i ∈ Isa.instructions, i.opcode ≠ memory.byteAt entry := by
      intro i hi heq
      exact hop ⟨i, hi, heq.symm⟩
    constructor
    · rintro ⟨t, hhalts, -, -⟩
      have hno := running_of_unknown hload rfl hunknown n (iter_tick?_iff.mp hhalts.reaches)
      rw [hhalts.stopped] at hno
      cases hno
    · rintro ⟨fuel, hrun⟩
      rw [harch] at hrun
      have hnone : (Arch.boot memory entry).nextBlock = none := by
        unfold Arch.nextBlock
        rw [if_neg]
        intro hmem
        obtain ⟨i, hi, heq⟩ := List.any_eq_true.mp hmem
        exact hunknown i hi (eq_of_beq heq)
      cases fuel with
      | zero => cases hrun
      | succ fuel =>
          unfold Arch.interpret Blocks.interpret at hrun
          rw [hnone] at hrun
          cases hrun

end Cpu

/-! ## The exit code -/

/-- The file behind a path; there is no content if it cannot be opened. -/
structure DebugFile where
  path : Text
  content : Option Text
  deriving DecidableEq, Repr

/-- The arguments that decide the exit code.  A negative limit of cycles means none, and so does an
empty path of debug symbols; a negative depth of the trace is the default. -/
structure RunOptions where
  expectCrash : Bool
  maxCycles : BitVec 64
  debug : Option DebugFile
  traceDepth : BitVec 64
  deriving DecidableEq, Repr

/-- `LoadDebugSymbols` on a path -/
def DebugFile.load (file : DebugFile) : Except LoadError DebugSymbols :=
  match file.content with
  | none => .error (.sim ("failed to open debug symbols: " ++ String.ofList file.path))
  | some content => loadDebugSymbols content

/-- The exit code of a run that has ended. -/
def exitCode (expectCrash : Bool) (reason : HaltReason) : Nat :=
  if reason = .timeout then 4
  else if expectCrash then
    if reason = .crash then 0 else 2
  else if reason = .crash then 2 else 0

namespace RunOptions

variable (o : RunOptions)

/-- `RunUntilHalt` of the tool returns with a reason. -/
def Returns (cpu : Cpu) (reason : HaltReason) : Prop :=
  if o.maxCycles.toInt < 0 then ∃ n t, Cpu.HaltsAfter n cpu t ∧ t.stopped = reason
  else ∃ result t, Cpu.runUntilHalt o.maxCycles false cpu = .ok result t ∧ result.reason = reason

/-- `RunUntilHalt` of the tool throws. -/
def Throws (cpu : Cpu) : Prop :=
  if o.maxCycles.toInt < 0 then ∃ n e t, Cpu.ticks n cpu = .error e t
  else ∃ e t, Cpu.runUntilHalt o.maxCycles false cpu = .error e t

/-- The sidecar that the tool loads, none if there is no path. -/
def sidecar : Option DebugFile := o.debug.filter fun file => !file.path.isEmpty

/-- The debug symbols that the tool gives to the CPU. -/
def loadSymbols : Except LoadError (Option DebugSymbols) :=
  match o.sidecar with
  | none => .ok none
  | some file => file.load.map some

/-- The CPU in front of its first tick. -/
def boot (cpu : Cpu) (entry : Word) : Cpu :=
  if o.sidecar.isSome then
    (cpu.setEntry entry).enableTrace
      (if 0 ≤ o.traceDepth.toInt then o.traceDepth.toNat else 64)
  else if 0 ≤ o.traceDepth.toInt then (cpu.setEntry entry).enableTrace o.traceDepth.toNat
  else cpu.setEntry entry

/-- The exit code of the tool on the bytes of a cartridge file.  The debug symbols are for the
output only, but symbols that do not load end the tool. -/
inductive Exits (data : List Byte) : Nat → Prop
  | unreadable {e : CartridgeError} (h : loadCartridge data = .error e) (hdef : e ≠ .undefined) :
      Exits data 1
  | unbuildable {cartridge : LoadedCartridge} {e : SimError}
      (h : loadCartridge data = .ok cartridge)
      (hnew : Cpu.new Irata.program cartridge.rom [] = .error e) : Exits data 1
  | symbolless {cartridge : LoadedCartridge} {cpu : Cpu} {e : LoadError}
      (h : loadCartridge data = .ok cartridge)
      (hnew : Cpu.new Irata.program cartridge.rom [] = .ok cpu)
      (hsymbols : o.loadSymbols = .error e) : Exits data 1
  | failed {cartridge : LoadedCartridge} {cpu : Cpu} {symbols : Option DebugSymbols}
      (h : loadCartridge data = .ok cartridge)
      (hnew : Cpu.new Irata.program cartridge.rom [] = .ok cpu)
      (hsymbols : o.loadSymbols = .ok symbols)
      (hrun : o.Throws (o.boot cpu cartridge.header.entry)) : Exits data 1
  | finished {cartridge : LoadedCartridge} {cpu : Cpu} {symbols : Option DebugSymbols}
      {reason : HaltReason} (h : loadCartridge data = .ok cartridge)
      (hnew : Cpu.new Irata.program cartridge.rom [] = .ok cpu)
      (hsymbols : o.loadSymbols = .ok symbols)
      (hrun : o.Returns (o.boot cpu cartridge.header.entry) reason) :
      Exits data (exitCode o.expectCrash reason)

/-- The interpreter stops on the image in a cartridge file, within the limit if there is one. -/
def Interprets (data : List Byte) (reason : HaltReason) : Prop :=
  ∃ loaded cartridge memory, loadCartridge data = .ok loaded ∧
    Cpu.newCartridgeRegion loaded.rom = .ok cartridge ∧
    Memory.new [Cpu.ramRegion, cartridge] = .ok memory ∧
    ∃ fuel n s, (Arch.boot memory loaded.header.entry).interpret fuel = some (n, reason, s) ∧
      (o.maxCycles.toInt < 0 ∨ (n : Int) ≤ o.maxCycles.toInt)

/-- Only the trace depends on the options. -/
theorem exists_boot_eq (cpu : Cpu) (entry : Word) :
    ∃ trace, o.boot cpu entry = { cpu.setEntry entry with trace := trace } := by
  unfold boot
  split
  · exact ⟨_, rfl⟩
  · split
    · exact ⟨_, rfl⟩
    · exact ⟨(cpu.setEntry entry).trace, rfl⟩

theorem loaded_boot {cpu : Cpu} (h : cpu.Loaded Irata.program) (entry : Word) :
    (o.boot cpu entry).Loaded Irata.program := by
  obtain ⟨trace, heq⟩ := o.exists_boot_eq cpu entry
  rw [heq]
  exact Cpu.loaded_trace (Cpu.loaded_setEntry h entry) trace

/-- The CPU returns with the reason of the interpreter, if that stops within the limit. -/
theorem returns_iff {cpu : Cpu} (hload : cpu.Loaded Irata.program) {reason : HaltReason}
    (hreason : reason ≠ .timeout) :
    o.Returns cpu reason ↔ ∃ n t, Cpu.HaltsAfter n cpu t ∧ t.stopped = reason ∧
      (o.maxCycles.toInt < 0 ∨ (n : Int) ≤ o.maxCycles.toInt) := by
  unfold Returns
  by_cases hneg : o.maxCycles.toInt < 0
  · rw [if_pos hneg]
    constructor
    · rintro ⟨n, t, hhalts, hstop⟩
      exact ⟨n, t, hhalts, hstop, .inl hneg⟩
    · rintro ⟨n, t, hhalts, hstop, -⟩
      exact ⟨n, t, hhalts, hstop⟩
  · rw [if_neg hneg]
    -- a limit that is not negative is the same number without a sign
    have hnat : o.maxCycles.toInt = o.maxCycles.toNat := by
      have hlt := o.maxCycles.isLt
      rw [BitVec.toInt_eq_toNat_cond] at hneg ⊢
      split at hneg
      · rename_i h
        rw [if_pos h]
      · omega
    obtain ⟨hiff, hcycles⟩ := Cpu.runUntilHalt_iff_haltsAfter hload o.maxCycles false
    constructor
    · rintro ⟨result, t, hrun, rfl⟩
      obtain ⟨hle, -⟩ := hcycles result t hrun
      rw [BitVec.le_def] at hle
      have hresult : result = ⟨result.reason, BitVec.ofNat 64 result.cycles.toNat, result.state⟩ := by
        rw [BitVec.ofNat_toNat, BitVec.setWidth_eq]
      rw [hresult] at hrun
      obtain ⟨u, hhalts, hstop, -⟩ :=
        (hiff _ hle result.reason t.datapath.arch).mp ⟨_, t, hrun, hreason, rfl⟩
      refine ⟨_, u, hhalts, hstop, .inr ?_⟩
      omega
    · rintro ⟨n, t, hhalts, hstop, hlimit⟩
      have hle : n ≤ o.maxCycles.toNat := by omega
      obtain ⟨state, u, hrun, -⟩ := (hiff n hle reason t.datapath.arch).mpr ⟨t, hhalts, hstop, rfl⟩
      exact ⟨_, u, hrun, rfl⟩

/-- The tool returns with the reason for which the interpreter stops. -/
theorem exists_returns_iff {data : List Byte} {reason : HaltReason} (hreason : reason ≠ .timeout) :
    (∃ cartridge cpu, loadCartridge data = .ok cartridge ∧
        Cpu.new Irata.program cartridge.rom [] = .ok cpu ∧
        o.Returns (o.boot cpu cartridge.header.entry) reason) ↔
      o.Interprets data reason := by
  obtain ⟨m, hm⟩ := Cpu.exists_instructionMemory
  constructor
  · rintro ⟨loaded, cpu, hloaded, hnew, hrun⟩
    have hload := o.loaded_boot (Cpu.loaded_new hnew) loaded.header.entry
    obtain ⟨n, t, hhalts, hstop, hlimit⟩ := (o.returns_iff hload hreason).mp hrun
    obtain ⟨cartridge, memory, m', hcartridge, hmem, hm', rfl⟩ := Cpu.new_eq_ok.mp hnew
    obtain ⟨trace, heq⟩ := o.exists_boot_eq (Cpu.initial memory m') loaded.header.entry
    rw [heq] at hhalts
    obtain ⟨fuel, hfuel⟩ :=
      (Cpu.haltsAfter_boot_iff hcartridge hmem hm' loaded.header.entry trace).mp
        ⟨t, hhalts, hstop, rfl⟩
    exact ⟨loaded, cartridge, memory, hloaded, hcartridge, hmem, fuel, n, _, hfuel, hlimit⟩
  · rintro ⟨loaded, cartridge, memory, hloaded, hcartridge, hmem, fuel, n, s, hfuel, hlimit⟩
    have hnew : Cpu.new Irata.program loaded.rom [] = .ok (Cpu.initial memory m) :=
      Cpu.new_eq_ok.mpr ⟨cartridge, memory, m, hcartridge, hmem, hm, rfl⟩
    have hload := o.loaded_boot (Cpu.loaded_new hnew) loaded.header.entry
    obtain ⟨trace, heq⟩ := o.exists_boot_eq (Cpu.initial memory m) loaded.header.entry
    obtain ⟨t, hhalts, hstop, -⟩ :=
      (Cpu.haltsAfter_boot_iff hcartridge hmem hm loaded.header.entry trace).mpr ⟨fuel, hfuel⟩
    rw [← heq] at hhalts
    exact ⟨loaded, _, hloaded, hnew, (o.returns_iff hload hreason).mpr ⟨n, t, hhalts, hstop, hlimit⟩⟩

/-- The reason of a run that has returned. -/
theorem reason_of_returns {cpu : Cpu} (hload : cpu.Loaded Irata.program) {reason : HaltReason}
    (h : o.Returns cpu reason) : reason = .timeout ∨ reason = .halt ∨ reason = .crash := by
  by_cases htimeout : reason = .timeout
  · exact .inl htimeout
  · obtain ⟨n, t, -, rfl, -⟩ := (o.returns_iff hload htimeout).mp h
    unfold Cpu.stopped
    split
    · exact .inr (.inr rfl)
    · exact .inr (.inl rfl)

/-- An exit code that is not that of an error is the code of a reason. -/
theorem exits_iff_exists_returns {data : List Byte} {code : Nat} (hcode : code ≠ 1) :
    o.Exits data code ↔ (∃ symbols, o.loadSymbols = .ok symbols) ∧
      ∃ cartridge cpu reason, loadCartridge data = .ok cartridge ∧
        Cpu.new Irata.program cartridge.rom [] = .ok cpu ∧
        o.Returns (o.boot cpu cartridge.header.entry) reason ∧
        code = exitCode o.expectCrash reason := by
  constructor
  · intro h
    -- all the other ways end with code 1
    cases h with
    | unreadable | unbuildable | symbolless | failed => exact absurd rfl hcode
    | finished h hnew hsymbols hrun => exact ⟨⟨_, hsymbols⟩, _, _, _, h, hnew, hrun, rfl⟩
  · rintro ⟨⟨symbols, hsymbols⟩, cartridge, cpu, reason, h, hnew, hrun, rfl⟩
    exact .finished h hnew hsymbols hrun

/-- A code that belongs to one reason, among those that a run returns with. -/
theorem exits_iff_of_reason {data : List Byte} {code : Nat} {reason : HaltReason} (hcode : code ≠ 1)
    (hreason : reason ≠ .timeout)
    (h : ∀ r, r = .timeout ∨ r = .halt ∨ r = .crash →
      (code = exitCode o.expectCrash r ↔ r = reason)) :
    o.Exits data code ↔ (∃ symbols, o.loadSymbols = .ok symbols) ∧ o.Interprets data reason := by
  rw [o.exits_iff_exists_returns hcode, ← o.exists_returns_iff hreason]
  refine and_congr_right fun _ => ?_
  constructor
  · rintro ⟨cartridge, cpu, r, hloaded, hnew, hrun, heq⟩
    have hload := o.loaded_boot (Cpu.loaded_new hnew) cartridge.header.entry
    cases (h r (o.reason_of_returns hload hrun)).mp heq
    exact ⟨cartridge, cpu, hloaded, hnew, hrun⟩
  · rintro ⟨cartridge, cpu, hloaded, hnew, hrun⟩
    have hload := o.loaded_boot (Cpu.loaded_new hnew) cartridge.header.entry
    exact ⟨cartridge, cpu, reason, hloaded, hnew, hrun,
      (h reason (o.reason_of_returns hload hrun)).mpr rfl⟩

/-- The verdict of the interpreter for which the tool reports success. -/
def expected : HaltReason := if o.expectCrash then .crash else .halt

def unexpected : HaltReason := if o.expectCrash then .halt else .crash

theorem exitCode_iff {r : HaltReason} (h : r = .timeout ∨ r = .halt ∨ r = .crash) :
    (0 = exitCode o.expectCrash r ↔ r = o.expected) ∧
      (2 = exitCode o.expectCrash r ↔ r = o.unexpected) := by
  unfold expected unexpected
  obtain rfl | rfl | rfl := h <;> cases o.expectCrash <;> decide

/-- The tool exits with 0 exactly when the debug symbols load and the interpreter stops as expected
on the image in the file, and with 2 exactly when they load and it stops the other way. -/
theorem exits_iff_interprets (data : List Byte) :
    (o.Exits data 0 ↔
        (∃ symbols, o.loadSymbols = .ok symbols) ∧ o.Interprets data o.expected) ∧
      (o.Exits data 2 ↔
        (∃ symbols, o.loadSymbols = .ok symbols) ∧ o.Interprets data o.unexpected) := by
  have hexpected : o.expected ≠ .timeout := by
    unfold expected
    split <;> decide
  have hunexpected : o.unexpected ≠ .timeout := by
    unfold unexpected
    split <;> decide
  exact ⟨o.exits_iff_of_reason (by decide) hexpected fun r hr => (o.exitCode_iff hr).1,
    o.exits_iff_of_reason (by decide) hunexpected fun r hr => (o.exitCode_iff hr).2⟩

end RunOptions

end Irata2.Sim
