import Irata2.Microcode.Pipeline
import Irata2.Sim.Sequencing

/-!
# The step counter and the variants

On a compiled set of any shape, a tick at step `k` of a variant takes the counter to the next step,
or back to zero.  Under one opcode and one status the counter so runs through the variant, and when
the status changes the controller may go on in another one.
-/

namespace Irata2.Sim

open Hdl Library Microcode Relation

namespace Cpu

/-- The CPU is at step `k` of a variant of a compiled set. -/
structure AtStep (is : InstructionSet) (i : Instruction) (v : InstructionVariant) (k : Nat)
    (cpu : Cpu) : Prop where
  instruction : i ∈ is.instructions
  variant : v ∈ i.variants
  opcode : cpu.irValue = i.opcode
  holds : v.holds cpu.datapath.status = true
  sc : cpu.controller.sc.toNat = k

section Compiled

variable {c : Compiler} {is : InstructionSet} {p : MicrocodeProgram} {cpu t : Cpu}
  {i : Instruction} {v : InstructionVariant} {k : Nat} {s : Microcode.Step}

/-- The Control phase looks up the controls of that step. -/
theorem lookup_of_atStep (hc : c.compile is = .ok p) (hload : cpu.Loaded p)
    (hat : AtStep is i v k cpu)
    (hs : (c.optimizedSteps is.fetchPreamble v.steps)[k]? = some s) :
    cpu.lookup = .ok (InstructionMemory.decode (encodeControls s.controls)) := by
  rcases exists_ir_of_compile hc with ⟨ir, hir, hvalid, henc⟩
  rcases (Compiler.of_optimizedIr hir).2.2 with ⟨-, rfl⟩
  have h := lookup_of_holds (v := v.mapSteps (c.optimizedSteps is.fetchPreamble)) hvalid henc
    hload.instructionMemory (Compiler.mem_optimized hat.instruction)
    (List.mem_map_of_mem hat.variant) hat.holds hs
  rw [← hat.sc, BitVec.ofNat_toNat, BitVec.setWidth_eq] at h
  unfold lookup encodedStatus
  rw [hat.opcode]
  exact h

theorem length_optimizedSteps (hc : c.compile is = .ok p) (hi : i ∈ is.instructions)
    (hv : v ∈ i.variants) : (c.optimizedSteps is.fetchPreamble v.steps).length ≤ 256 := by
  rcases bind_eq_ok.mp hc with ⟨ir, hir, henc⟩
  rcases (Compiler.of_optimizedIr hir).2.2 with ⟨-, rfl⟩
  have hsteps := ((encode_eq_ok.mp henc).1 _ (Compiler.mem_optimized hi) _
    (List.mem_map_of_mem hv)).steps
  exact hsteps

/-- Every step asserts the control that sequences it. -/
theorem sequenceControl_mem (hc : c.compile is = .ok p) (hi : i ∈ is.instructions)
    (hv : v ∈ i.variants) (hs : (c.optimizedSteps is.fetchPreamble v.steps)[k]? = some s) :
    sequenceControl c.incrementControl c.resetControl
      (c.optimizedSteps is.fetchPreamble v.steps).length k ∈ s.controls := by
  rcases bind_eq_ok.mp hc with ⟨ir, hir, -⟩
  rcases Compiler.of_optimizedIr hir with ⟨-, -, hvalid, rfl⟩
  have hends := hvalid.sequenced _ (Compiler.mem_optimized hi) _ (List.mem_map_of_mem hv)
  exact sequenceCheck_iff.mpr hends k s hs

/-- What a tick at a step does: nothing to a halted CPU, and otherwise what the step says. -/
theorem tick_of_atStep (hc : c.compile is = .ok p) (hload : cpu.Loaded p)
    (hat : AtStep is i v k cpu) (hs : (c.optimizedSteps is.fetchPreamble v.steps)[k]? = some s)
    (ht : tick cpu = .ok () t) :
    (cpu.halted = true ∧ t = cpu) ∨
      ∃ d, cpu.datapath.step (Datapath.on s.controls) = .ok d ∧
        t = cpu.afterTick (cpu.assertedBy s.controls) d := by
  rcases tick_cases hc hload with ⟨hh, ht'⟩ | ⟨e, -, -, ht'⟩ | ⟨controls, d, -, hl, hd, ht'⟩ |
    ⟨e, u, -, ht'⟩
  · cases ht.symm.trans ht'
    exact .inl ⟨hh, rfl⟩
  · cases ht.symm.trans ht'
  · cases hl.symm.trans (lookup_of_atStep hc hload hat hs)
    cases ht.symm.trans ht'
    rw [assertedBy_decode] at hd ⊢
    rw [step_assertedBy] at hd
    exact .inr ⟨d, hd, rfl⟩
  · cases ht.symm.trans ht'

theorem exists_tick_of_atStep (hc : c.compile is = .ok p) (hload : cpu.Loaded p)
    (hh : cpu.halted = false) (hat : AtStep is i v k cpu)
    (hs : (c.optimizedSteps is.fetchPreamble v.steps)[k]? = some s) {d : Datapath}
    (hd : cpu.datapath.step (Datapath.on s.controls) = .ok d) :
    tick cpu = .ok () (cpu.afterTick (cpu.assertedBy s.controls) d) := by
  have hlookup := lookup_of_atStep hc hload hat hs
  have hbuses := respectsBuses_of_lookup hc hload hlookup
  have hstep := hd
  rw [← step_assertedBy cpu, ← assertedBy_decode] at hstep
  rw [← assertedBy_decode]
  exact tick_of_step hload.idle hh hlookup hbuses hstep

/-- The step counter after a tick that executes a step: a reset wins over the increment. -/
theorem sc_of_atStep (hinc : c.incrementControl = .scIncrement) (hres : c.resetControl = .scReset)
    (hc : c.compile is = .ok p) (hat : AtStep is i v k cpu)
    (hs : (c.optimizedSteps is.fetchPreamble v.steps)[k]? = some s) (d : Datapath) :
    (cpu.afterTick (cpu.assertedBy s.controls) d).controller.sc.toNat =
      if Control.scReset ∈ s.controls then 0 else k + 1 := by
  have hasserted : ∀ e, e ≠ .irqLine → cpu.assertedBy s.controls e = decide (e ∈ s.controls) :=
    fun e he => if_neg he
  show ((if _ then _ else if _ then _ else if _ then _ else _ : Byte)).toNat = _
  rw [hasserted .scReset (by decide), hasserted .scIncrement (by decide)]
  by_cases hreset : Control.scReset ∈ s.controls
  · rw [if_pos (decide_eq_true hreset), if_pos hreset]
    rfl
  · have hmem := sequenceControl_mem hc hat.instruction hat.variant hs
    have hlen := length_optimizedSteps hc hat.instruction hat.variant
    have hlt := (List.getElem?_eq_some_iff.mp hs).1
    unfold sequenceControl at hmem
    rw [hinc, hres] at hmem
    split at hmem
    · exact absurd hmem hreset
    · rw [if_neg (by rw [decide_eq_false hreset]; decide), if_pos (decide_eq_true hmem),
        if_neg hreset, ← hat.sc]
      have hsc := hat.sc
      show (cpu.controller.sc + 1#8).toNat = cpu.controller.sc.toNat + 1
      rw [BitVec.toNat_add]
      show (cpu.controller.sc.toNat + 1) % 256 = _
      omega

/-! ## One opcode and one status -/

/-- Successive ticks under one opcode and one status.  Whatever else changes in between, a tick
starts at the step counter that the tick before it left. -/
structure HeldTicks (p : MicrocodeProgram) (opcode status : Byte) (n : Nat) (f : Nat → Cpu) :
    Prop where
  loaded : ∀ k < n, (f k).Loaded p
  running : ∀ k < n, (f k).halted = false
  opcode : ∀ k < n, (f k).irValue = opcode
  status : ∀ k < n, (f k).datapath.status = status
  next : ∀ k < n, ∃ t, tick (f k) = .ok () t ∧ (f (k + 1)).controller.sc = t.controller.sc

/-- The step counter runs through a variant: it takes the values from 0 on, each tick executes
the step at the counter, and the tick of the last step takes it back to 0. -/
theorem counter_runs_through (hinc : c.incrementControl = .scIncrement)
    (hres : c.resetControl = .scReset) (hc : c.compile is = .ok p) (hi : i ∈ is.instructions)
    (hv : v ∈ i.variants) {status : Byte} (hholds : v.holds status = true)
    (hreset : ∀ k s, (c.optimizedSteps is.fetchPreamble v.steps)[k]? = some s →
      k + 1 < (c.optimizedSteps is.fetchPreamble v.steps).length → Control.scReset ∉ s.controls)
    {f : Nat → Cpu}
    (hf : HeldTicks p i.opcode status (c.optimizedSteps is.fetchPreamble v.steps).length f)
    (hzero : (f 0).controller.sc = 0) :
    (∀ k s, (c.optimizedSteps is.fetchPreamble v.steps)[k]? = some s →
      (f k).controller.sc.toNat = k ∧
        (f k).lookup = .ok (InstructionMemory.decode (encodeControls s.controls))) ∧
      (f (c.optimizedSteps is.fetchPreamble v.steps).length).controller.sc = 0 := by
  -- the counter after a step, from the counter before it
  have hnext : ∀ k s, (c.optimizedSteps is.fetchPreamble v.steps)[k]? = some s →
      (f k).controller.sc.toNat = k →
      (f (k + 1)).controller.sc.toNat = if Control.scReset ∈ s.controls then 0 else k + 1 := by
    intro k s hs hsc
    have hlt := (List.getElem?_eq_some_iff.mp hs).1
    have hat : AtStep is i v k (f k) :=
      ⟨hi, hv, hf.opcode k hlt, by rw [hf.status k hlt]; exact hholds, hsc⟩
    rcases hf.next k hlt with ⟨t, ht, hsct⟩
    rw [hsct]
    rcases tick_of_atStep hc (hf.loaded k hlt) hat hs ht with ⟨hh, -⟩ | ⟨d, -, rfl⟩
    · rw [hf.running k hlt] at hh
      cases hh
    · exact sc_of_atStep hinc hres hc hat hs d
  have hcounter : ∀ k s, (c.optimizedSteps is.fetchPreamble v.steps)[k]? = some s →
      (f k).controller.sc.toNat = k := by
    intro k
    induction k with
    | zero =>
        intro s _
        rw [hzero]
        rfl
    | succ k ih =>
        intro s hs
        have hlt := (List.getElem?_eq_some_iff.mp hs).1
        have hk := List.getElem?_eq_getElem (Nat.lt_of_succ_lt hlt)
        rw [hnext k _ hk (ih _ hk), if_neg (hreset k _ hk hlt)]
  refine ⟨fun k s hs => ⟨hcounter k s hs, ?_⟩, ?_⟩
  · have hlt := (List.getElem?_eq_some_iff.mp hs).1
    have hat : AtStep is i v k (f k) :=
      ⟨hi, hv, hf.opcode k hlt, by rw [hf.status k hlt]; exact hholds, hcounter k s hs⟩
    exact lookup_of_atStep hc (hf.loaded k hlt) hat hs
  · cases hlen : (c.optimizedSteps is.fetchPreamble v.steps).length with
    | zero => exact hzero
    | succ n =>
        have hlt : n < (c.optimizedSteps is.fetchPreamble v.steps).length := by omega
        have hn := List.getElem?_eq_getElem hlt
        have hlast := sequenceControl_mem hc hi hv hn
        unfold sequenceControl at hlast
        rw [if_pos hlen.symm, hres] at hlast
        have hsc := hnext n _ hn (hcounter n _ hn)
        rw [if_pos hlast] at hsc
        exact BitVec.eq_of_toNat_eq hsc

/-! ## A status that changes -/

/-- The index of the first step after the fetch. -/
def fetchLength (c : Compiler) (is : InstructionSet) (v : InstructionVariant) : Nat :=
  if is.fetchPreamble.isEmpty then 0
  else ((c.optimizedSteps is.fetchPreamble v.steps).filter fun s => s.stage = 0).length

/-- No control of a step can change a status bit that the conditions of a variant name. -/
def KeepsConditions (v : InstructionVariant) (controls : List Control) : Prop :=
  ∀ f : StatusBit, f.name ∈ v.statusConditions.map Prod.fst →
    controls.any (Datapath.changesBit f) = false

/-- One event of a run in the middle of an instruction: the step counter is not back at zero, and
the opcode is still the instruction's. -/
def Continues (opcode : Byte) (s t : Cpu) : Prop :=
  Step s t ∧ t.controller.sc ≠ 0 ∧ t.irValue = opcode

theorem holds_of_keepsConditions {controls : List Control} (hkeep : KeepsConditions v controls)
    {d d' : Datapath} (hholds : v.holds d.status = true)
    (hd : d.step (Datapath.on controls) = .ok d') : v.holds d'.status = true := by
  rw [holds_iff] at *
  intro name value hmem
  rcases hholds name value hmem with ⟨f, rfl, hf⟩
  refine ⟨f, rfl, ?_⟩
  have hvalue := Datapath.step_value (hkeep f (List.mem_map_of_mem hmem)) hd
  exact hvalue.trans hf

/-- An event in the middle of an instruction stays at a step of the variant. -/
theorem atStep_of_continues (hinc : c.incrementControl = .scIncrement)
    (hres : c.resetControl = .scReset) (hc : c.compile is = .ok p) (hload : cpu.Loaded p)
    (hat : AtStep is i v k cpu) (hs : (c.optimizedSteps is.fetchPreamble v.steps)[k]? = some s)
    (hkeep : k + 1 < (c.optimizedSteps is.fetchPreamble v.steps).length →
      KeepsConditions v s.controls)
    (ht : Continues i.opcode cpu t) :
    t.Loaded p ∧ ∃ k', k ≤ k' ∧ k' < (c.optimizedSteps is.fetchPreamble v.steps).length ∧
      AtStep is i v k' t := by
  have hlt := (List.getElem?_eq_some_iff.mp hs).1
  rcases ht with ⟨hstep, hsc, hopcode⟩
  refine ⟨loaded_step hc hload hstep, ?_⟩
  cases hstep with
  | host index input =>
      exact ⟨k, le_refl k, hlt, hat.instruction, hat.variant, hat.opcode, hat.holds, hat.sc⟩
  | tickError herror hne =>
      -- the lookup succeeds, so only a store can have failed
      rcases tick_cases hc hload with ⟨-, ht⟩ | ⟨e, -, hl, -⟩ | ⟨controls, d, -, -, -, ht⟩ |
        ⟨e, u, he, ht⟩
      · cases herror.symm.trans ht
      · cases hl.symm.trans (lookup_of_atStep hc hload hat hs)
      · cases herror.symm.trans ht
      · cases herror.symm.trans ht
        exact absurd he hne
  | tick htick =>
      rcases tick_of_atStep hc hload hat hs htick with ⟨-, rfl⟩ | ⟨d, hd, rfl⟩
      · exact ⟨k, le_refl k, hlt, hat⟩
      · have hcounter := sc_of_atStep hinc hres hc hat hs d
        have hnoreset : Control.scReset ∉ s.controls := by
          intro hmem
          rw [if_pos hmem] at hcounter
          exact hsc (BitVec.eq_of_toNat_eq hcounter)
        have hnotlast : k + 1 < (c.optimizedSteps is.fetchPreamble v.steps).length := by
          by_contra hlast
          have hmem := sequenceControl_mem hc hat.instruction hat.variant hs
          unfold sequenceControl at hmem
          rw [if_pos (by omega), hres] at hmem
          exact hnoreset hmem
        rw [if_neg hnoreset] at hcounter
        exact ⟨k + 1, Nat.le_succ k, hnotlast, hat.instruction, hat.variant, hopcode,
          holds_of_keepsConditions (hkeep hnotlast) hat.holds hd, hcounter⟩

/-- An instruction goes on in the variant it has begun, as long as no step of the variant but its
last can change the variant's condition. -/
theorem runs_one_variant (hinc : c.incrementControl = .scIncrement)
    (hres : c.resetControl = .scReset) (hc : c.compile is = .ok p) (hi : i ∈ is.instructions)
    (hv : v ∈ i.variants)
    (hkeep : ∀ k s, fetchLength c is v ≤ k →
      k + 1 < (c.optimizedSteps is.fetchPreamble v.steps).length →
      (c.optimizedSteps is.fetchPreamble v.steps)[k]? = some s → KeepsConditions v s.controls)
    {start : Cpu} (hload : start.Loaded p) (hopcode : start.irValue = i.opcode)
    (hsc : start.controller.sc.toNat = fetchLength c is v)
    (hfirst : fetchLength c is v < (c.optimizedSteps is.fetchPreamble v.steps).length)
    (hholds : v.holds start.datapath.status = true)
    (hrun : ReflTransGen (Continues i.opcode) start cpu) :
    ∃ s, (c.optimizedSteps is.fetchPreamble v.steps)[cpu.controller.sc.toNat]? = some s ∧
      cpu.lookup = .ok (InstructionMemory.decode (encodeControls s.controls)) := by
  have hinv : cpu.Loaded p ∧ ∃ k, fetchLength c is v ≤ k ∧
      k < (c.optimizedSteps is.fetchPreamble v.steps).length ∧ AtStep is i v k cpu := by
    induction hrun with
    | refl => exact ⟨hload, _, le_refl _, hfirst, hi, hv, hopcode, hholds, hsc⟩
    | tail _ hstep ih =>
        rcases ih with ⟨hloadb, k, hle, hlt, hat⟩
        have hs := List.getElem?_eq_getElem hlt
        rcases atStep_of_continues hinc hres hc hloadb hat hs (fun h => hkeep k _ hle h hs) hstep
          with ⟨hloadc, k', hkk, hlt', hat'⟩
        exact ⟨hloadc, k', hle.trans hkk, hlt', hat'⟩
  rcases hinv with ⟨hloadc, k, -, hlt, hat⟩
  have hs := List.getElem?_eq_getElem hlt
  rw [hat.sc]
  exact ⟨_, hs, lookup_of_atStep hc hloadc hat hs⟩

end Compiled

/-! ## Two sets that compile -/

/-- A CPU on a compiled set, before its first tick. -/
theorem exists_initial {c : Compiler} {is : InstructionSet} {p : MicrocodeProgram}
    (hc : c.compile is = .ok p) (references : List StatusBit) (hlen : references.length ≤ 8)
    (hbits : c.statusEncoder.bits = references.map fun f => ⟨f.name, f.bitIndex⟩) :
    ∃ m, Cpu.new p [] [] = .ok (initial bareMemory m) := by
  rcases exists_ir_of_compile hc with ⟨ir, -, -, henc⟩
  rcases InstructionMemory.exists_new henc hlen hbits with ⟨rom, hm⟩
  exact ⟨_, new_eq new_bareMemory hm⟩

def resetVariant : InstructionVariant := ⟨[], [⟨0, [.scReset]⟩, ⟨0, [.halt]⟩], sorted_nil⟩

/-- A variant whose first step resets the step counter, and a variant without steps. -/
def resetSet : InstructionSet where
  fetchPreamble := []
  instructions := Isa.instructions.map fun i =>
    ⟨i.opcode,
      if i.opcode = 0x02 then [resetVariant]
      else if i.opcode = 0x01 then [⟨[], [], sorted_nil⟩]
      else []⟩

def resetProgram : MicrocodeProgram :=
  ⟨[(0x20000, encodeControls [.scReset, .scIncrement]),
    (0x20100, encodeControls [.halt, .scReset])], controlPaths, []⟩

theorem compile_resetSet : Compiler.statusless.compile resetSet = .ok resetProgram := by
  have hvalid : Compiler.statusless.runAllValidators (Compiler.statusless.prepared resetSet) =
      .ok () := by
    refine runAllValidators_of_opcodes ?_ (by decide +kernel) (by decide +kernel)
      (by decide +kernel) (by decide +kernel) (by decide +kernel)
    rw [Compiler.opcodes_prepared, resetSet, List.map_map]
    rfl
  exact bind_eq_ok.mpr ⟨_, Compiler.optimizedIr_of_valid rfl hvalid (.inr (.inl rfl)),
    by decide⟩

/-- The counter does not leave the first of two steps, and a variant can have no step at all. -/
theorem counter_not_runs_through :
    ∃ cpu t, Compiler.statusless.compile resetSet = .ok resetProgram ∧
      Cpu.new resetProgram [] [] = .ok cpu ∧
      (∃ i ∈ resetSet.instructions, i.opcode = cpu.irValue ∧ resetVariant ∈ i.variants) ∧
      (Compiler.statusless.optimizedSteps [] resetVariant.steps).length = 2 ∧
      cpu.controller.sc = 0 ∧ tick cpu = .ok () t ∧ t.controller.sc = 0 ∧
      t.irValue = cpu.irValue ∧ t.datapath.status = cpu.datapath.status ∧
      ∃ i ∈ resetSet.instructions, ∃ v ∈ i.variants,
        Compiler.statusless.optimizedSteps [] v.steps = [] := by
  rcases exists_initial compile_resetSet [] (by decide) rfl with ⟨m, hnew⟩
  have hmem : (⟨0x02, [resetVariant]⟩ : Instruction) ∈ resetSet.instructions := by decide
  have hat : AtStep resetSet ⟨0x02, [resetVariant]⟩ resetVariant 0 (initial bareMemory m) :=
    ⟨hmem, List.mem_singleton_self _, rfl, rfl, rfl⟩
  have hs : (Compiler.statusless.optimizedSteps resetSet.fetchPreamble resetVariant.steps)[0]? =
      some ⟨0, [.scReset, .scIncrement]⟩ := by decide
  have htick := exists_tick_of_atStep compile_resetSet (loaded_new hnew) rfl hat hs
    (d := (initial bareMemory m).datapath) (by rw [Datapath.step_on]; rfl)
  have hsc := sc_of_atStep rfl rfl compile_resetSet hat hs (initial bareMemory m).datapath
  exact ⟨_, _, compile_resetSet, hnew, ⟨_, hmem, rfl, List.mem_singleton_self _⟩,
    by decide, rfl, htick, BitVec.eq_of_toNat_eq hsc, rfl, rfl,
    ⟨0x01, [⟨[], [], sorted_nil⟩]⟩, by decide, _, List.mem_singleton_self _,
    by decide⟩

def clearVariant : InstructionVariant :=
  ⟨[("zero", false)], [⟨0, [.setStatus .zero]⟩, ⟨0, [.halt]⟩], by decide⟩

def setVariant : InstructionVariant :=
  ⟨[("zero", true)], [⟨0, [.clearStatus .zero]⟩, ⟨0, [.crash]⟩], by decide⟩

def stayVariant : InstructionVariant :=
  ⟨[("zero", false)], [⟨0, [.pcIncrement]⟩, ⟨0, [.halt]⟩], by decide⟩

def crashVariant : InstructionVariant := ⟨[("zero", true)], [⟨0, [.crash]⟩], by decide⟩

/-- An opcode whose variants turn their condition over in the first step, and an opcode whose
variants leave it alone. -/
def flipSet : InstructionSet where
  fetchPreamble := []
  instructions := Isa.instructions.map fun i =>
    ⟨i.opcode,
      if i.opcode = 0x02 then [clearVariant, setVariant]
      else if i.opcode = 0x01 then [stayVariant, crashVariant]
      else []⟩

/-- A compiler that tells the zero flag. -/
def zeroCompiler : Compiler := ⟨⟨[⟨"zero", 1⟩], by decide⟩, .scIncrement, .scReset⟩

def flipProgram : MicrocodeProgram :=
  ⟨[(0x10000, encodeControls [.pcIncrement, .scIncrement]),
    (0x10100, encodeControls [.halt, .scReset]),
    (0x10002, encodeControls [.crash, .scReset]),
    (0x20000, encodeControls [.setStatus .zero, .scIncrement]),
    (0x20100, encodeControls [.halt, .scReset]),
    (0x20002, encodeControls [.clearStatus .zero, .scIncrement]),
    (0x20102, encodeControls [.crash, .scReset])], controlPaths, [⟨"zero", 1⟩]⟩

theorem compile_flipSet : zeroCompiler.compile flipSet = .ok flipProgram := by
  have hvalid : zeroCompiler.runAllValidators (zeroCompiler.prepared flipSet) = .ok () := by
    refine runAllValidators_of_opcodes ?_ (by decide +kernel) (by decide +kernel)
      (by decide +kernel) (by decide +kernel) (by decide +kernel)
    rw [Compiler.opcodes_prepared, flipSet, List.map_map]
    rfl
  exact bind_eq_ok.mpr ⟨_, Compiler.optimizedIr_of_valid rfl hvalid (.inr (.inl rfl)),
    by decide⟩

/-- The first step sets the zero flag, and the CPU goes on with the second step of the other
variant. -/
theorem not_runs_one_variant :
    ∃ cpu t, zeroCompiler.compile flipSet = .ok flipProgram ∧
      (∀ i ∈ flipSet.instructions, ∀ v ∈ i.variants, ∀ s ∈ v.steps, ∀ d ∈ s.controls,
        d.owner ≠ .sc) ∧
      Cpu.new flipProgram [] [] = .ok cpu ∧
      (∃ i ∈ flipSet.instructions, i.opcode = cpu.irValue ∧ clearVariant ∈ i.variants) ∧
      cpu.controller.sc.toNat = fetchLength zeroCompiler flipSet clearVariant ∧
      clearVariant.holds cpu.datapath.status = true ∧
      Continues cpu.irValue cpu t ∧
      (zeroCompiler.optimizedSteps [] clearVariant.steps)[t.controller.sc.toNat]? =
        some ⟨0, [.halt, .scReset]⟩ ∧
      t.lookup = .ok (InstructionMemory.decode (encodeControls [.crash, .scReset])) ∧
      InstructionMemory.decode (encodeControls [.crash, .scReset]) ≠
        InstructionMemory.decode (encodeControls [.halt, .scReset]) := by
  rcases exists_initial compile_flipSet [.zero] (by decide) rfl with ⟨m, hnew⟩
  have hmem : (⟨0x02, [clearVariant, setVariant]⟩ : Instruction) ∈ flipSet.instructions := by
    decide
  have hclear : clearVariant.holds 0x00 = true := by decide
  have hset : setVariant.holds (Status.assign .zero true 0) = true := by decide
  have hat : AtStep flipSet ⟨0x02, [clearVariant, setVariant]⟩ clearVariant 0
      (initial bareMemory m) := ⟨hmem, List.mem_cons_self, rfl, hclear, rfl⟩
  have hs : (zeroCompiler.optimizedSteps flipSet.fetchPreamble clearVariant.steps)[0]? =
      some ⟨0, [.setStatus .zero, .scIncrement]⟩ := by decide
  -- the first step sets the flag that its own variant asks to be clear
  have htick := exists_tick_of_atStep compile_flipSet (loaded_new hnew) rfl hat hs
    (d := (initial bareMemory m).datapath.assignStatus .zero true) (by rw [Datapath.step_on]; rfl)
  have hsc := sc_of_atStep rfl rfl compile_flipSet hat hs
    ((initial bareMemory m).datapath.assignStatus .zero true)
  have hload := loaded_step compile_flipSet (loaded_new hnew) (.tick htick)
  have hat' : AtStep flipSet ⟨0x02, [clearVariant, setVariant]⟩ setVariant 1
      ((initial bareMemory m).afterTick
        ((initial bareMemory m).assertedBy [.setStatus .zero, .scIncrement])
        ((initial bareMemory m).datapath.assignStatus .zero true)) :=
    ⟨hmem, List.mem_cons_of_mem _ List.mem_cons_self, rfl, hset, hsc⟩
  -- so the next step is looked up in the other variant
  have hlookup := lookup_of_atStep compile_flipSet hload hat'
    (s := ⟨0, [.crash, .scReset]⟩) (by decide)
  refine ⟨_, _, compile_flipSet, by decide +kernel, hnew,
    ⟨_, hmem, rfl, List.mem_cons_self⟩, rfl, hclear, ⟨.tick htick, ?_, rfl⟩, ?_, hlookup,
    by decide⟩
  · intro h
    rw [h] at hsc
    exact absurd hsc (by decide)
  · rw [hsc]
    decide

/-! ### Two ticks through a variant -/

theorem mem_flipSet_stay :
    (⟨0x01, [stayVariant, crashVariant]⟩ : Instruction) ∈ flipSet.instructions := by
  decide

theorem optimizedSteps_stayVariant :
    zeroCompiler.optimizedSteps flipSet.fetchPreamble stayVariant.steps =
      [⟨0, [.pcIncrement, .scIncrement]⟩, ⟨0, [.halt, .scReset]⟩] := by
  decide

/-- The two ticks of a CPU through the variant that leaves its condition alone. -/
structure StayTicks (start middle last : Cpu) : Prop where
  loaded : start.Loaded flipProgram
  first : AtStep flipSet ⟨0x01, [stayVariant, crashVariant]⟩ stayVariant 0 start
  second : AtStep flipSet ⟨0x01, [stayVariant, crashVariant]⟩ stayVariant 1 middle
  running : start.halted = false ∧ middle.halted = false
  status : start.datapath.status = 0 ∧ middle.datapath.status = 0
  tick : tick start = .ok () middle ∧ tick middle = .ok () last

theorem exists_stayTicks : ∃ start middle last, StayTicks start middle last := by
  obtain ⟨m, hnew⟩ := exists_initial compile_flipSet [.zero] (by decide) rfl
  let start : Cpu := { initial bareMemory m with
    datapath := { (initial bareMemory m).datapath with ir := 0x01 } }
  have hload : start.Loaded flipProgram :=
    ⟨⟨(loaded_new hnew).idle.asserted, rfl, rfl⟩, (loaded_new hnew).instructionMemory⟩
  have hholds : stayVariant.holds 0 = true := by decide
  have hat : AtStep flipSet ⟨0x01, [stayVariant, crashVariant]⟩ stayVariant 0 start :=
    ⟨mem_flipSet_stay, List.mem_cons_self, rfl, hholds, rfl⟩
  have hfirst : (zeroCompiler.optimizedSteps flipSet.fetchPreamble stayVariant.steps)[0]? =
      some ⟨0, [.pcIncrement, .scIncrement]⟩ := by decide
  have hsecond : (zeroCompiler.optimizedSteps flipSet.fetchPreamble stayVariant.steps)[1]? =
      some ⟨0, [.halt, .scReset]⟩ := by decide
  -- the first step moves the program counter, the second one halts
  let d : Datapath := { start.datapath with pc := start.datapath.pc + 1 }
  have htick := exists_tick_of_atStep compile_flipSet hload rfl hat hfirst
    (d := d) (by rw [Datapath.step_on]; rfl)
  have hload' := loaded_step compile_flipSet hload (.tick htick)
  let middle : Cpu := start.afterTick (start.assertedBy [.pcIncrement, .scIncrement]) d
  have hat' : AtStep flipSet ⟨0x01, [stayVariant, crashVariant]⟩ stayVariant 1 middle :=
    ⟨mem_flipSet_stay, List.mem_cons_self, rfl, hholds,
      sc_of_atStep rfl rfl compile_flipSet hat hfirst d⟩
  have htick' := exists_tick_of_atStep compile_flipSet hload' rfl hat' hsecond
    (d := d) (by rw [Datapath.step_on]; rfl)
  exact ⟨start, middle, _, hload, hat, hat', ⟨rfl, rfl⟩, ⟨rfl, rfl⟩, htick, htick'⟩

/-- In the second tick the Control phase asserts the controls of the second step, of the variant whose
condition holds. -/
theorem controlPhase_refines_ir_stayVariant :
    ∃ start middle cpu' : Cpu, start.Loaded flipProgram ∧ tick start = .ok () middle ∧
      controlPhase middle = .ok () cpu' ∧ cpu'.asserted .halt = true ∧
      ¬cpu'.asserted .pcIncrement = true ∧ ¬cpu'.asserted .crash = true := by
  obtain ⟨start, middle, last, h⟩ := exists_stayTicks
  obtain ⟨ir, hir, hphase⟩ := controlPhase_refines_ir compile_flipSet h.loaded
  obtain ⟨-, -, -, rfl⟩ := Compiler.of_optimizedIr hir
  obtain ⟨v, hv, hruns⟩ := hphase _ (Compiler.mem_optimized mem_flipSet_stay) (List.cons_ne_nil _ _) 0
  have hvariant : [v] = [stayVariant.mapSteps (zeroCompiler.optimizedSteps flipSet.fetchPreamble)] :=
    hv.symm.trans (by rfl)
  obtain ⟨rfl, -⟩ := List.cons.inj hvariant
  have hsecond : (zeroCompiler.optimizedSteps flipSet.fetchPreamble
      stayVariant.steps)[middle.controller.sc.toNat]? = some ⟨0, [.halt, .scReset]⟩ := by
    rw [h.second.sc, optimizedSteps_stayVariant]
    rfl
  have hrun : Run start middle := .single (.tick h.tick.1)
  obtain ⟨cpu', hcontrol, hasserted⟩ :=
    hruns middle hrun h.running.2 h.second.opcode h.status.2 _ hsecond
  refine ⟨start, middle, cpu', h.loaded, h.tick.1, hcontrol, (hasserted .halt rfl).mpr (by decide),
    ?_, ?_⟩
  · rw [hasserted .pcIncrement rfl]
    decide
  · rw [hasserted .crash rfl]
    decide

/-- The counter goes from the first step to the second and back to zero. -/
theorem counter_runs_through_stayVariant :
    ∃ start middle last : Cpu, start.Loaded flipProgram ∧
      tick start = .ok () middle ∧ tick middle = .ok () last ∧
      (start.controller.sc.toNat = 0 ∧ start.lookup =
        .ok (InstructionMemory.decode (encodeControls [.pcIncrement, .scIncrement]))) ∧
      (middle.controller.sc.toNat = 1 ∧ middle.lookup =
        .ok (InstructionMemory.decode (encodeControls [.halt, .scReset]))) ∧
      last.controller.sc = 0 := by
  obtain ⟨start, middle, last, h⟩ := exists_stayTicks
  have hload := loaded_step compile_flipSet h.loaded (.tick h.tick.1)
  have hsteps := optimizedSteps_stayVariant
  let f : Nat → Cpu := fun k => if k = 0 then start else if k = 1 then middle else last
  have htwo : ∀ P : Nat → Prop, P 0 → P 1 →
      ∀ k < (zeroCompiler.optimizedSteps flipSet.fetchPreamble stayVariant.steps).length, P k := by
    intro P h₀ h₁ k hk
    rw [hsteps] at hk
    have hlt : k = 0 ∨ k = 1 := by
      have : k < 2 := hk
      omega
    obtain rfl | rfl := hlt
    · exact h₀
    · exact h₁
  -- both ticks see the opcode and the status of the variant
  have hheld : HeldTicks flipProgram 0x01 0
      (zeroCompiler.optimizedSteps flipSet.fetchPreamble stayVariant.steps).length f :=
    ⟨htwo _ h.loaded hload, htwo _ h.running.1 h.running.2,
      htwo _ h.first.opcode h.second.opcode, htwo _ h.status.1 h.status.2,
      htwo _ ⟨_, h.tick.1, rfl⟩ ⟨_, h.tick.2, rfl⟩⟩
  have hreset : ∀ k s,
      (zeroCompiler.optimizedSteps flipSet.fetchPreamble stayVariant.steps)[k]? = some s →
      k + 1 < (zeroCompiler.optimizedSteps flipSet.fetchPreamble stayVariant.steps).length →
      Control.scReset ∉ s.controls := by
    intro k s hs hk
    rw [hsteps] at hs hk
    have hk₀ : k = 0 := by
      have : k + 1 < 2 := hk
      omega
    subst hk₀
    cases hs
    decide
  have hrun := counter_runs_through rfl rfl compile_flipSet mem_flipSet_stay List.mem_cons_self
    (by decide) hreset hheld (BitVec.eq_of_toNat_eq h.first.sc)
  rw [hsteps] at hrun
  exact ⟨start, middle, last, h.loaded, h.tick.1, h.tick.2, hrun.1 0 _ rfl, hrun.1 1 _ rfl, hrun.2⟩

/-- After its first tick the CPU executes the second step of the variant it has begun. -/
theorem runs_one_variant_stayVariant :
    ∃ start middle : Cpu, start.Loaded flipProgram ∧ tick start = .ok () middle ∧
      ∃ s, (zeroCompiler.optimizedSteps flipSet.fetchPreamble
          stayVariant.steps)[middle.controller.sc.toNat]? = some s ∧
        middle.lookup = .ok (InstructionMemory.decode (encodeControls s.controls)) := by
  obtain ⟨start, middle, last, h⟩ := exists_stayTicks
  have hsteps := optimizedSteps_stayVariant
  have hkeep : ∀ k s, fetchLength zeroCompiler flipSet stayVariant ≤ k →
      k + 1 < (zeroCompiler.optimizedSteps flipSet.fetchPreamble stayVariant.steps).length →
      (zeroCompiler.optimizedSteps flipSet.fetchPreamble stayVariant.steps)[k]? = some s →
        KeepsConditions stayVariant s.controls := by
    intro k s _ hk hs f _
    rw [hsteps] at hs hk
    have hk₀ : k = 0 := by
      have : k + 1 < 2 := hk
      omega
    subst hk₀
    cases hs
    rfl
  have hsc : middle.controller.sc ≠ 0 := by
    intro hzero
    have hone := h.second.sc
    rw [hzero] at hone
    exact absurd hone (by decide)
  have hrun : ReflTransGen (Continues 0x01) start middle :=
    ReflTransGen.single ⟨.tick h.tick.1, hsc, h.second.opcode⟩
  exact ⟨start, middle, h.loaded, h.tick.1,
    runs_one_variant rfl rfl compile_flipSet mem_flipSet_stay List.mem_cons_self hkeep h.loaded
      h.first.opcode h.first.sc (by decide) h.first.holds hrun⟩

end Cpu

end Irata2.Sim
