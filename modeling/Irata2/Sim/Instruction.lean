import Irata2.Sim.Boundary
import Irata2.Sim.MissingEntry
import Irata2.Sim.Replay

/-!
# One instruction of a run

A CPU at a boundary executes an instruction when its ticks first return the step counter to zero.
What it executes depends on the registers and the memory only, and it ends at a boundary again
unless the instruction stops the CPU.
-/

namespace Irata2.Sim

open Hdl Isa Library Library.StateRun Microcode

/-! ## RAM stays RAM -/

namespace Arch

theorem lowRam_read {s : Arch} (h : s.memory.LowRam) (address : Word) :
    (s.read address).memory.LowRam :=
  Memory.lowRam_afterRead h address

theorem lowRam_push {s : Arch} (h : s.memory.LowRam) (v : Byte) : (s.push v).memory.LowRam :=
  Memory.lowRam_store h _ v

theorem lowRam_pushWord {s : Arch} (h : s.memory.LowRam) (w : Word) :
    (s.pushWord w).memory.LowRam :=
  lowRam_push (lowRam_push h w.high) w.low

theorem lowRam_pull {s : Arch} (h : s.memory.LowRam) : s.pull.memory.LowRam := lowRam_read h _

theorem lowRam_loadPc {s : Arch} (h : s.memory.LowRam) (address : Word) :
    (s.loadPc address).memory.LowRam :=
  lowRam_read (lowRam_read h address) _

theorem lowRam_setReg {s : Arch} (h : s.memory.LowRam) (r : Isa.Register) (v : Byte) :
    (s.setReg r v).memory.LowRam := by
  cases r <;> exact h

theorem lowRam_assign {s : Arch} (h : s.memory.LowRam) (f : StatusBit) (v : Bool) :
    (s.assign f v).memory.LowRam := h

theorem lowRam_interrupt {s : Arch} (h : s.memory.LowRam) (b : Bool) :
    (s.interrupt b).memory.LowRam := by
  unfold interrupt
  dsimp only
  apply lowRam_loadPc
  apply lowRam_assign
  apply lowRam_push
  apply lowRam_assign
  apply lowRam_pushWord
  exact lowRam_assign h _ _

/-- No action turns RAM into something else. -/
theorem lowRam_exec {s s' : Arch} {address : Word} {action : Isa.Action} (h : s.memory.LowRam)
    (hexec : s.exec address action = .ok s') : s'.memory.LowRam := by
  cases action with
  | store r =>
      change (s.memory.writeAt address (s.reg r)).map _ = _ at hexec
      rcases hw : s.memory.writeAt address (s.reg r) with e | m
      · rw [hw] at hexec
        cases hexec
      · rw [hw] at hexec
        cases hexec
        exact Memory.lowRam_writeAt h hw
  | modifyMemory f =>
      change ((s.memory.afterRead address).writeAt address
        (f.value (s.look address) (Status.value .carry s.status))).map _ = _ at hexec
      rcases hw : (s.memory.afterRead address).writeAt address
        (f.value (s.look address) (Status.value .carry s.status)) with e | m
      · rw [hw] at hexec
        cases hexec
      · rw [hw] at hexec
        cases hexec
        exact Memory.lowRam_writeAt (Memory.lowRam_afterRead h address) hw
  | load r | modify r f | transfer source target =>
      cases hexec
      apply lowRam_setReg
      first | exact h | exact lowRam_read h address
  | accumulate f | compare r | bit | branch | skip =>
      cases hexec
      exact lowRam_read h address
  | pushAccumulator | pushStatus =>
      cases hexec
      exact lowRam_push h _
  | pullAccumulator | pullStatus =>
      cases hexec
      exact lowRam_pull h
  | jumpIndirect =>
      cases hexec
      exact lowRam_loadPc h address
  | call =>
      cases hexec
      exact lowRam_pushWord h s.pc
  | ret =>
      cases hexec
      exact lowRam_pull (lowRam_pull h)
  | brk | irq =>
      cases hexec
      exact lowRam_interrupt h _
  | rti =>
      cases hexec
      exact lowRam_pull (s := ({ s.pull with status := s.top } : Arch).pull)
        (lowRam_pull (s := { s.pull with status := s.top }) (lowRam_pull h))
  | nop | halt | crash | pass | stackToX | xToStack | assign f v | jump =>
      cases hexec
      exact h

theorem lowRam_execute {s s' : Arch} {i : InstructionInfo} (h : s.memory.LowRam)
    (hexec : s.execute i = .ok s') : s'.memory.LowRam :=
  lowRam_exec (Bodies.locate_lowRam (s := s.next) (lowRam_read h s.pc) i.addressingMode) hexec

end Arch

namespace Memory

theorem LowRam.of_isRam {m m' : Memory} (hm : m.LowRam) (h : ∀ b, m'.isRam b = m.isRam b) :
    m'.LowRam :=
  fun b hb => (h b).trans (hm b hb)

/-- The RAM of a CPU, with the given bytes. -/
def ramOf (cells : Fin 0x2000 → Byte) : Region :=
  ⟨"ram", 0x0000, 0x2000, .ram cells, isPowerOfTwo_ram, aligned_ram⟩

theorem contains_ramOf (cells : Fin 0x2000 → Byte) {b : Word} (hb : b.toNat < 0x2000) :
    (ramOf cells).contains b = true := by
  have hupper : (ramOf cells).upper = 0x2000 := by
    show (0 + 0x2000 % 2 ^ 32) % 2 ^ 32 = 0x2000
    decide
  unfold Region.contains
  rw [Bool.and_eq_true, hupper]
  exact ⟨decide_eq_true (Nat.zero_le _), decide_eq_true hb⟩

theorem lowRam_of_head {cells : Fin 0x2000 → Byte} {rs : List Region} {hd} :
    (⟨ramOf cells :: rs, hd⟩ : Memory).LowRam := by
  intro b hb
  unfold isRam
  rw [List.find?_cons_of_pos (p := fun r : Region => r.contains b) (contains_ramOf cells hb)]
  rfl

theorem disjoint_ramOf (cells : Fin 0x2000 → Byte) :
    ([ramOf cells, Cpu.emptyCartridge].map Region.window).Pairwise windowsDisjoint := by
  show [((0 : Nat), (0 + 0x2000 % 2 ^ 32) % 2 ^ 32),
    (0x8000, (0x8000 + 0x8000 % 2 ^ 32) % 2 ^ 32)].Pairwise windowsDisjoint
  refine List.Pairwise.cons (fun w hw => ?_) (List.pairwise_singleton _ _)
  cases List.mem_singleton.mp hw
  rintro ⟨-, h⟩
  exact absurd h (by decide)

/-- A memory whose RAM starts with the given bytes. -/
def image (bytes : List Byte) : Memory :=
  ⟨[ramOf fun k => bytes.getD k.val 0, Cpu.emptyCartridge], disjoint_ramOf _⟩

theorem byteAt_image (bytes : List Byte) {b : Word} (hb : b.toNat < 0x2000) :
    (image bytes).byteAt b = bytes.getD b.toNat 0 := by
  apply byteAt_of_cell
  unfold cell image
  rw [List.find?_cons_of_pos (p := fun r : Region => r.contains b) (contains_ramOf _ hb)]
  have htranslate : ((ramOf fun k => bytes.getD k.val 0).translate b).toNat = b.toNat := by
    rw [Region.translate_toNat _ b (contains_ramOf _ hb)]
    rfl
  show (if h : _ then some _ else none) = _
  rw [dif_pos (by rw [htranslate]; exact hb)]
  exact congrArg (fun k => some (bytes.getD k 0)) htranslate

end Memory

namespace Cpu

/-! ## The RAM of a CPU -/

theorem lowRam_new {program : MicrocodeProgram} {cartridgeRom : List Byte}
    {extraRegions : List Region} {cpu : Cpu}
    (h : Cpu.new program cartridgeRom extraRegions = .ok cpu) : cpu.datapath.memory.LowRam := by
  rcases bind_eq_ok.mp h with ⟨ram, hram, h⟩
  rcases bind_eq_ok.mp h with ⟨cartridge, -, h⟩
  rcases bind_eq_ok.mp h with ⟨memory, hm, h⟩
  rcases bind_eq_ok.mp h with ⟨instructionMemory, -, h⟩
  cases h
  have hfirst : ram = ramRegion := by
    cases hram
    rfl
  subst hfirst
  unfold Memory.new at hm
  split at hm
  · cases hm
  · cases hm
    exact Memory.lowRam_of_head

/-- Ticks and host actions keep the RAM in its place. -/
theorem lowRam_run {c : Compiler} {is : InstructionSet} {p : MicrocodeProgram}
    (hc : c.compile is = .ok p) {cpu cpu' : Cpu} (hload : cpu.Loaded p)
    (hram : cpu.datapath.memory.LowRam) (h : Run cpu cpu') : cpu'.datapath.memory.LowRam := by
  induction h with
  | refl => exact hram
  | @tail s t hrun hstep ih =>
      have hs := loaded_run hc hload hrun
      cases hstep with
      | host index i => exact Memory.lowRam_host ih index i
      | tick ht =>
          have hreplays := replays_tick hc hs
          rw [ht] at hreplays
          exact ih.of_isRam hreplays.isRam
      | tickError ht he =>
          have hreplays := replays_tick hc hs
          rw [ht] at hreplays
          exact ih.of_isRam hreplays.isRam

/-! ## The ticks of one instruction -/

theorem ticks_prefix {n : Nat} {cpu cpu' : Cpu} (h : ticks n cpu = .ok () cpu') {m : Nat}
    (hm : m ≤ n) : ∃ t, ticks m cpu = .ok () t := by
  obtain ⟨k, rfl⟩ := Nat.exists_eq_add_of_le hm
  clear hm
  induction m generalizing cpu with
  | zero => exact ⟨cpu, rfl⟩
  | succ m ih =>
      rw [Nat.add_right_comm] at h
      change (tick >>= fun _ => ticks (m + k)) cpu = _ at h
      cases ht : tick cpu with
      | error e t =>
          rw [bind_of_error ht] at h
          cases h
      | ok u t =>
          rw [bind_of_ok ht] at h
          rcases ih h with ⟨s, hs⟩
          exact ⟨s, (ticks_succ ht m).trans hs⟩

/-- The first `n` ticks are those of one instruction: they end where the step counter returns to
zero, or at a tick that throws. -/
structure OneInstruction (n : Nat) (cpu : Cpu) : Prop where
  pos : 0 < n
  inside : ∀ m t, 0 < m → m < n → ticks m cpu = .ok () t → t.controller.sc ≠ 0
  ends : ∀ t, ticks n cpu = .ok () t → t.controller.sc = 0

section Boundary

variable {cpu : Cpu} (hb : cpu.AtBoundary) {i : InstructionInfo} (hi : i ∈ Isa.instructions)
  (hnext : cpu.nextOpcode = i.opcode)

include hb hi hnext

theorem oneInstruction : OneInstruction (duration i cpu.datapath.status) cpu where
  pos := Nat.add_pos_left (by decide) _
  inside := (executes hb hi hnext).2.2
  ends := by
    intro t ht
    have hyields := (executes hb hi hnext).2.1
    rw [ht] at hyields
    cases hexec : cpu.datapath.arch.execute i with
    | error e =>
        rw [hexec] at hyields
        rcases hyields with ⟨t', ht'⟩
        cases ht'
    | ok s =>
        rw [hexec] at hyields
        rcases hyields with ⟨t', ht', -, hfinished⟩
        cases ht'
        exact hfinished.sc

/-- There is one number of ticks at which an instruction ends without an error. -/
theorem executes_iff {cpu' : Cpu} :
    Executes cpu cpu' ↔ ticks (duration i cpu.datapath.status) cpu = .ok () cpu' := by
  have hone := oneInstruction hb hi hnext
  constructor
  · rintro ⟨n, hticks, hsc, hinside⟩
    have hlength : n + 1 = duration i cpu.datapath.status := by
      rcases lt_trichotomy (n + 1) (duration i cpu.datapath.status) with hlt | heq | hgt
      · exact absurd hsc (hone.inside _ _ n.succ_pos hlt hticks)
      · exact heq
      · -- the instruction has ended before, so the counter has been at zero
        obtain ⟨m, hm⟩ := Nat.exists_eq_add_of_lt hone.pos
        rw [Nat.zero_add] at hm
        rcases hinside m (by omega) with ⟨t, ht, hne⟩
        rw [← hm] at ht
        exact absurd (hone.ends t ht) hne
    rw [← hlength]
    exact hticks
  · intro hticks
    obtain ⟨n, hn⟩ := Nat.exists_eq_add_of_lt hone.pos
    rw [Nat.zero_add] at hn
    rw [hn] at hticks
    refine ⟨n, hticks, hone.ends _ (by rw [hn]; exact hticks), fun m hm => ?_⟩
    rcases ticks_prefix hticks (m := m + 1) (by omega) with ⟨t, ht⟩
    exact ⟨t, ht, hone.inside _ t m.succ_pos (by omega) ht⟩

/-- An instruction that the CPU executes does what the architecture says. -/
theorem execute_of_executes {cpu' : Cpu} (h : Executes cpu cpu') :
    cpu.datapath.arch.execute i = .ok cpu'.datapath.arch ∧ Finished i cpu cpu' := by
  have hyields := (executes hb hi hnext).2.1
  rw [(executes_iff hb hi hnext).mp h] at hyields
  cases hexec : cpu.datapath.arch.execute i with
  | error e =>
      rw [hexec] at hyields
      rcases hyields with ⟨t, ht⟩
      cases ht
  | ok s =>
      rw [hexec] at hyields
      rcases hyields with ⟨t, ht, rfl, hfinished⟩
      cases ht
      exact ⟨rfl, hfinished⟩

/-- The CPU executes every instruction of which no store fails. -/
theorem exists_executes {s : Arch} (h : cpu.datapath.arch.execute i = .ok s) :
    ∃ cpu', Executes cpu cpu' ∧ cpu'.datapath.arch = s ∧ Finished i cpu cpu' := by
  have hyields := (executes hb hi hnext).2.1
  rw [h] at hyields
  rcases hyields with ⟨cpu', hticks, harch, hfinished⟩
  exact ⟨cpu', (executes_iff hb hi hnext).mpr hticks, harch, hfinished⟩

/-- An instruction that runs under its own opcode ends at a boundary, unless it stops the CPU. -/
theorem atBoundary_of_executes (hirq : cpu.takesInterrupt = false)
    (hstop : stops (actionOn i cpu.datapath.status) = false) {cpu' : Cpu}
    (h : Executes cpu cpu') : cpu'.AtBoundary := by
  rcases execute_of_executes hb hi hnext h with ⟨hexec, hfinished⟩
  refine ⟨hfinished.loaded, hfinished.halted.trans hstop, hfinished.sc, ⟨i, hi, ?_⟩, ?_⟩
  · -- the byte that was fetched is the opcode that was executed
    rw [hfinished.ir, ← hnext]
    unfold nextOpcode
    rw [hirq]
    rfl
  · exact Arch.lowRam_execute (s := cpu.datapath.arch) hb.lowRam hexec

end Boundary

/-! ## Boundary states -/

/-- A CPU before an instruction, with the given datapath. -/
def start (d : Datapath) (m : InstructionMemory) : Cpu := { initial d.memory m with datapath := d }

theorem exists_instructionMemory :
    ∃ m, InstructionMemory.new cpuControls Irata.program = .ok m := by
  rcases exists_ir_of_compile Irata.compile_instructionSet with ⟨ir, -, -, henc⟩
  rcases @InstructionMemory.exists_new _ _ _ henc
    [.negative, .overflow, .unused, .brk, .decimal, .interruptDisable, .zero, .carry]
    (by decide) rfl with ⟨rom, hrom⟩
  exact ⟨_, hrom⟩

theorem loaded_start {m : InstructionMemory}
    (hm : InstructionMemory.new cpuControls Irata.program = .ok m) (d : Datapath) :
    (start d m).Loaded Irata.program :=
  ⟨⟨fun _ _ => rfl, rfl, rfl⟩, hm⟩

theorem atBoundary_start {m : InstructionMemory}
    (hm : InstructionMemory.new cpuControls Irata.program = .ok m) {d : Datapath}
    (hir : ∃ i ∈ Isa.instructions, d.ir = i.opcode) (hram : d.memory.LowRam) :
    (start d m).AtBoundary :=
  ⟨loaded_start hm d, rfl, rfl, hir, hram⟩

/-- The ROM of the default microcode reaches beyond every opcode below the last one. -/
theorem key_lt_romSize {opcode step status : Byte} (hop : opcode.toNat < 0xD4) :
    encodeKey ⟨opcode, step, status⟩ < InstructionMemory.romSize Irata.program.table := by
  have hi : (⟨.jmp, 0xD4, .ind, []⟩ : InstructionInfo) ∈ Isa.instructions := by decide +kernel
  rcases exists_ir_of_compile Irata.compile_instructionSet with ⟨ir, hir, -, henc⟩
  cases hir.symm.trans (Compiler.optimizedIr_eq Irata.accepts_instructionSet)
  have hv : variantOn ⟨.jmp, 0xD4, .ind, []⟩ 0 ∈
      (Irata.implementation ⟨.jmp, 0xD4, .ind, []⟩).variants := variantOn_mem _ _
  have hone : (microSteps Irata.instructionSet.fetchPreamble
      (variantOn ⟨.jmp, 0xD4, .ind, []⟩ 0).steps)[0]? =
        some [Hdl.WordRegister.pc.write, Hdl.WordRegister.mar.read, Control.instructionStart] := by
    rw [microSteps_variantOn]
    rfl
  have hmem := Irata.mem_instructionSet _ hi
  rcases getElem?_compiledSteps Irata.accepts_instructionSet.preamble
    (Irata.accepts_instructionSet.steps _ hmem _ hv) _ hone with ⟨s, hs, -⟩
  have hstatus : (0 : Byte) ∈ Irata.compiler.statusEncoder.statusesOf
      (variantOn ⟨.jmp, 0xD4, .ind, []⟩ 0) := by
    rw [statusesOf_unconditional _ rfl, StatusEncoder.mem_allStatuses]
    intro j hj
    exact absurd hj (by simp)
  have he : IsEntry Irata.compiler.statusEncoder (compiled Irata.instructionSet) _ _ 0 s 0 :=
    ⟨List.mem_map_of_mem hmem, List.mem_map_of_mem hv, hs, hstatus⟩
  have hlt := InstructionMemory.lt_romSize (Table.mem_of_lookup (lookup_of_isEntry henc he))
  apply lt_of_le_of_lt _ hlt
  change encodeKey _ ≤ encodeKey ⟨0xD4, 0, 0⟩
  rw [encodeKey_eq, encodeKey_eq]
  have hstep := step.isLt
  have hst := status.isLt
  show opcode.toNat * 65536 + step.toNat * 256 + status.toNat ≤ 0xD4 * 65536 + 0 * 256 + 0
  omega

/-- Under an opcode without microcode a CPU ticks forever: it reads nothing, writes nothing and
starts no instruction. -/
theorem ticks_of_unimplemented {cpu : Cpu} (hload : cpu.Loaded Irata.program)
    (hh : cpu.halted = false) (hop : ∀ i ∈ Isa.instructions, i.opcode ≠ cpu.irValue)
    (hlt : cpu.irValue.toNat < 0xD4) (n : Nat) :
    ∃ t, ticks n cpu = .ok () t ∧ t.datapath = cpu.datapath ∧
      t.controller = cpu.controller := by
  rcases exists_ir_of_compile Irata.compile_instructionSet with ⟨ir, hir, -, henc⟩
  cases hir.symm.trans (Compiler.optimizedIr_eq Irata.accepts_instructionSet)
  have hmissing : ∀ step status : Byte,
      Irata.program.table.lookup (encodeKey ⟨cpu.irValue, step, status⟩) = none := by
    intro step status
    by_contra hne
    rcases Option.ne_none_iff_exists'.mp hne with ⟨word, hword⟩
    rcases isEntry_of_lookup henc hword with ⟨i, v, k, s, status', he, heq⟩
    have hkey := MicrocodeKey.mk.inj (encodeKey_injective (Prod.mk.inj heq).1)
    rcases List.mem_map.mp he.instruction with ⟨j, hj, hji⟩
    have hopcode : i.opcode = j.opcode := by
      rw [← hji]
    -- the source implements rows of the instruction table only
    have hrow := Irata.opcodes_perm.mem_iff.mp (List.mem_map_of_mem hj)
    rcases List.mem_map.mp hrow with ⟨row, hrow, hro⟩
    exact hop row hrow (hro.trans (hopcode.symm.trans hkey.1.symm))
  have hlookup := @InstructionMemory.lookup_of_missing Irata.program _ (nodup_table henc)
    hload.instructionMemory ⟨cpu.irValue, cpu.controller.sc, cpu.encodedStatus⟩
    (hmissing cpu.controller.sc cpu.encodedStatus) (key_lt_romSize hlt)
  rcases ticks_of_no_controls hload.idle hh hlookup n with ⟨t, ht, -, hd, hk⟩
  exact ⟨t, ht, hd, hk⟩

/-- After an interrupt that pre-empted a byte without microcode, no instruction executes: the first
tick drops the injected opcode, and the stale byte takes over. -/
theorem not_executes_of_stale {cpu : Cpu} (hload : cpu.Loaded Irata.program)
    (hh : cpu.halted = false) (hsc : cpu.controller.sc = 0)
    (hinject : cpu.controller.injectInterrupt = true) (hirq : cpu.takesInterrupt = false)
    (hop : ∀ i ∈ Isa.instructions, i.opcode ≠ cpu.datapath.ir)
    (hlt : cpu.datapath.ir.toNat < 0xD4) (cpu' : Cpu) : ¬Executes cpu cpu' := by
  have hvalue : ∃ i ∈ Isa.instructions, cpu.irValue = i.opcode := by
    unfold irValue
    rw [hinject]
    exact exists_irq
  rcases tick_fetch hload hh hvalue (k := 0) rfl hsc (Microstep.step_fetchStart cpu.datapath)
    with ⟨htick, -, hload₁, hh₁, hsc₁⟩
  have hinject₁ := @injectInterrupt_afterMicrostep cpu
    [Hdl.WordRegister.pc.write, Hdl.WordRegister.mar.read, .instructionStart] false
    { cpu.datapath with mar := cpu.datapath.pc } (by decide)
  rw [if_neg (by decide), if_pos (by decide)] at hinject₁
  change _ = cpu.takesInterrupt at hinject₁
  have hir₁ : (cpu.afterMicrostep [Hdl.WordRegister.pc.write, Hdl.WordRegister.mar.read,
      .instructionStart] false { cpu.datapath with mar := cpu.datapath.pc }).irValue =
        cpu.datapath.ir := by
    unfold irValue
    rw [hinject₁, hirq]
    rfl
  generalize cpu.afterMicrostep _ _ _ = cpu₁ at htick hload₁ hh₁ hsc₁ hir₁
  rw [← hir₁] at hop hlt
  rintro ⟨n, hticks, hzero, -⟩
  rcases ticks_of_unimplemented hload₁ hh₁ hop hlt n with ⟨t, ht, -, hcontroller⟩
  rw [ticks_succ htick, ht] at hticks
  cases hticks
  rw [hcontroller, hsc₁] at hzero
  exact absurd hzero (by decide)

/-- A CPU at the start of a RAM with the given bytes. -/
def imageDatapath (bytes : List Byte) : Datapath :=
  (initial (Memory.image bytes) ⟨[], [], ⟨0, 0⟩⟩).datapath

theorem exists_nop : ∃ i ∈ Isa.instructions, (0x02 : Byte) = i.opcode := by
  decide +kernel

theorem takesInterrupt_of_memory {cpu : Cpu} {bytes : List Byte}
    (hm : cpu.datapath.memory = Memory.image bytes) (hline : cpu.asserted .irqLine = false) :
    cpu.takesInterrupt = false := by
  have hlevel : cpu.irqLevel [] = false := by
    unfold irqLevel
    rw [hm, hline]
    rfl
  unfold takesInterrupt
  rw [hlevel]
  rfl

/-- A CPU after an interrupt that pre-empted the byte in the instruction register. -/
def preempted (d : Datapath) (m : InstructionMemory) : Cpu :=
  { start d m with controller := ⟨true, 0, 0, m⟩ }

theorem loaded_preempted {m : InstructionMemory}
    (hm : InstructionMemory.new cpuControls Irata.program = .ok m) (d : Datapath) :
    (preempted d m).Loaded Irata.program :=
  ⟨⟨fun _ _ => rfl, rfl, rfl⟩, hm⟩

theorem not_executes_preempted {m : InstructionMemory}
    (hm : InstructionMemory.new cpuControls Irata.program = .ok m) {d : Datapath}
    (hir : d.ir = 0x03) (hirq : (preempted d m).takesInterrupt = false) (cpu' : Cpu) :
    ¬Executes (preempted d m) cpu' := by
  have hop : ∀ i ∈ Isa.instructions, i.opcode ≠ 0x03 := by decide +kernel
  refine not_executes_of_stale (loaded_preempted hm d) rfl rfl rfl hirq ?_ ?_ cpu'
  · show ∀ i ∈ Isa.instructions, i.opcode ≠ d.ir
    rw [hir]
    exact hop
  · show d.ir.toNat < 0xD4
    rw [hir]
    decide

end Cpu

end Irata2.Sim
