import Irata2.Sim.Access
import Irata2.Sim.Cells
import Irata2.Sim.StepCounter

/-!
# Reset controls

A register or byte port with a reset control is zero after a tick that asserts its reset and no
other control under its path: the components that the Process phase visits later leave it alone.
The memory address register overrides the phase and does not look at its own reset.
-/

namespace Irata2.Sim

open Hdl Library Microcode

/-- A register or byte port with a reset control. -/
inductive ResetPort
  | byte (r : ByteRegister)
  | word (r : WordRegister)
  | sc
  deriving DecidableEq, Repr

namespace ResetPort

open Component Cell

def control : ResetPort → Control
  | byte r => r.reset
  | word r => r.reset
  | sc => .scReset

def path (q : ResetPort) : String := q.control.owner.path

/-- The control belongs to the port, or to a component below it. -/
def Covers (q : ResetPort) (e : Control) : Prop := (q.path ++ ".").toList <+: e.path.toList

instance (q : ResetPort) (e : Control) : Decidable (q.Covers e) :=
  inferInstanceAs (Decidable (_ <+: _))

def IsZero (q : ResetPort) (cpu : Cpu) : Prop :=
  match q with
  | byte r => cpu.datapath.byte r = 0
  | word r => cpu.datapath.word r = 0
  | sc => cpu.controller.sc = 0

/-- The ports are all there are: a control named `reset` resets one of them. -/
theorem exists_control_eq {e : Control} (h : e.operation = some .reset) :
    ∃ q : ResetPort, q.control = e := by
  cases e with
  | resetByte r => exact ⟨byte r, rfl⟩
  | resetWord r => exact ⟨word r, rfl⟩
  | scReset => exact ⟨sc, rfl⟩
  | _ => cases h

/-! ## The port's own component -/

def component : ResetPort → Component
  | byte r => .byteRegister r
  | word r => .wordRegister r
  | sc => .sc

variable {cs : Control → Bool}

theorem byte_process_reset {r : ByteRegister} (h : cs r.reset = true) (d : Datapath) :
    ((byteRegister r).process cs d).byte r = 0 := by
  by_cases hsp : r = .sp
  · subst hsp
    rw [Component.process, if_pos h]
    rfl
  · have hprocess : (byteRegister r).process cs d = d.setByte r 0 := by
      rw [Component.process, if_pos h]
      exact hsp
    rw [hprocess, byte_setByte, if_pos rfl]

theorem word_process_reset {r : WordRegister} (hr : r ≠ .mar) (h : cs r.reset = true)
    (d : Datapath) : ((wordRegister r).process cs d).word r = 0 := by
  cases r with
  | tmp =>
      rw [Component.process, if_pos h]
      rfl
  | pc =>
      rw [Component.process, if_pos h]
      rfl
  | mar => exact absurd rfl hr

/-! ## The components behind it -/

/-- Every cell that a component may change in the Process phase. -/
def mayWrite : Component → List Cell
  | .byteRegister .ir => [Cell.byte .ir, injectInterrupt]
  | .byteRegister r => ofByte r
  | .wordRegister r => ofWord r
  | .alu => Cell.byte .aluResult :: statusBits
  | .statusBit f => [bit f]
  | .controller | .ipc => [Cell.ipc]
  | .sc => [Cell.sc]
  | _ => []

theorem aluWrites_subset (n : Nat) : aluWrites n ⊆ Cell.byte .aluResult :: statusBits := by
  unfold aluWrites
  split <;> decide

theorem processWrites_subset (cs : Control → Bool) (c : Component) :
    c.processWrites cs ⊆ mayWrite c := by
  cases c with
  | byteRegister r => cases r <;> (simp only [processWrites]; split_ifs <;> decide)
  | wordRegister r => cases r <;> (simp only [processWrites]; split_ifs <;> decide)
  | statusBit f =>
      rw [processWrites]
      split_ifs
      · exact List.Subset.refl _
      · exact List.nil_subset _
  | alu => exact aluWrites_subset _
  | controller | ipc | sc =>
      rw [processWrites]
      split_ifs <;> decide
  | _ => exact List.nil_subset _

/-- The controls on which a component acts in the Process phase. -/
def processControls : Component → List Control
  | .byteRegister .sp => [ByteRegister.sp.reset, .spIncrement, .spDecrement]
  | .byteRegister .ir => [ByteRegister.ir.reset, .instructionStart]
  | .byteRegister r => [r.reset]
  | .wordRegister .tmp => [WordRegister.tmp.reset]
  | .wordRegister .pc => [WordRegister.pc.reset, .pcIncrement, .pcAddSignedOffset]
  | .wordRegister .mar => [.marInterruptVector, .marStackPage, .marIncrement, .marAddOffset]
  | .alu => [.aluOpcodeBit 0, .aluOpcodeBit 1, .aluOpcodeBit 2, .aluOpcodeBit 3]
  | .statusBit f => [f.set, f.clear]
  | .controller => [.instructionStart]
  | .ipc => [.ipcLatch]
  | .sc => [.scReset, .scIncrement, .scDecrement]
  | _ => []

theorem processWrites_of_silent {c : Component} (h : ∀ e ∈ processControls c, cs e = false) :
    c.processWrites cs = [] := by
  cases c with
  | byteRegister r => cases r <;> simp_all [processWrites, processControls]
  | wordRegister r => cases r <;> simp_all [processWrites, processControls]
  | alu =>
      have hopcode : aluOpcode cs = 0 := by
        simp_all [aluOpcode, processControls, Alu.opcode]
      rw [processWrites, hopcode]
      rfl
  | _ => simp_all [processWrites, processControls]

/-- The components that the Process phase visits behind the port's own. -/
def behind (q : ResetPort) : List Component :=
  (Datapath.components.dropWhile (· ≠ q.component)).tail

def cells : ResetPort → List Cell
  | byte r => ofByte r
  | word r => ofWord r
  | sc => [Cell.sc]

/-- The component changes no cell of the port, or it acts on controls under the port's path other
than its reset. -/
def Spares (q : ResetPort) (c : Component) : Prop :=
  (∀ k ∈ mayWrite c, k ∉ q.cells) ∨ ∀ e ∈ processControls c, q.Covers e ∧ e ≠ q.control

instance (q : ResetPort) (c : Component) : Decidable (q.Spares c) :=
  inferInstanceAs (Decidable (_ ∨ _))

theorem spares_of_mem_behind (q : ResetPort) : ∀ c ∈ q.behind, q.Spares c := by
  cases q with
  | byte r => cases r <;> decide
  | word r => cases r <;> decide
  | sc => decide

theorem components_eq {q : ResetPort} (hq : q ≠ sc) :
    Datapath.components =
      Datapath.components.takeWhile (· ≠ q.component) ++ q.component :: q.behind := by
  cases q with
  | byte r => cases r <;> decide
  | word r => cases r <;> decide
  | sc => exact absurd rfl hq

/-! ## One tick of the datapath -/

/-- Under the port's path its reset is the only asserted control. -/
def Alone (cs : Control → Bool) (q : ResetPort) : Prop :=
  ∀ e, cs e = true → q.Covers e → e = q.control

theorem eq_false_of_alone {q : ResetPort} (halone : Alone cs q) {e : Control} (he : q.Covers e)
    (hne : e ≠ q.control) : cs e = false := by
  by_contra hasserted
  rw [Bool.not_eq_false] at hasserted
  exact hne (halone e hasserted he)

/-- The datapath within a tick, beside a controller that does not matter. -/
def stage (d : Datapath) : Stage := ⟨d, Buses.empty, ⟨false, 0, 0, ⟨[], [], ⟨0, fun _ => 0⟩⟩⟩⟩

theorem foldl_process_eq (l : List Component) (d : Datapath) :
    l.foldl (Component.process cs) d = (l.foldl (Stage.process cs) (stage d)).datapath := by
  have hfold : ∀ s : Stage, l.foldl (Component.process cs) s.datapath =
      (l.foldl (Stage.process cs) s).datapath := by
    induction l with
    | nil => exact fun _ => rfl
    | cons c l ih => exact fun s => ih (s.process cs c)
  exact hfold (stage d)

/-- Components that spare the port leave its cells as they are. -/
theorem get_foldl_process {q : ResetPort} (halone : Alone cs q) {l : List Component}
    (hl : ∀ c ∈ l, q.Spares c) (s : Stage) {k : Cell} (hk : k ∈ q.cells) :
    Cell.get k (l.foldl (Stage.process cs) s) = Cell.get k s := by
  apply (footprint_foldl (footprint_process cs) l).frame s k
  rw [List.mem_flatMap]
  rintro ⟨c, hc, hmem⟩
  rcases hl c hc with hspares | hsilent
  · exact hspares k (processWrites_subset cs c hmem) hk
  · -- none of its controls is asserted
    have hnone : c.processWrites cs = [] := processWrites_of_silent fun e he =>
      eq_false_of_alone halone (hsilent e he).1 (hsilent e he).2
    rw [hnone] at hmem
    cases hmem

/-- What the component of a port has reset is zero at the end of the phase. -/
theorem byte_foldl_process {r : ByteRegister} (hreset : cs r.reset = true)
    (halone : Alone cs (byte r)) (d : Datapath) :
    (Datapath.components.foldl (Component.process cs) d).byte r = 0 := by
  rw [components_eq (q := byte r) (fun h => by cases h), List.foldl_append, List.foldl_cons,
    foldl_process_eq]
  apply Eq.trans (byte_eq_of_cells fun k hk =>
    get_foldl_process halone (spares_of_mem_behind (byte r)) (stage _) hk)
  exact byte_process_reset hreset _

theorem word_foldl_process {r : WordRegister} (hr : r ≠ .mar) (hreset : cs r.reset = true)
    (halone : Alone cs (word r)) (d : Datapath) :
    (Datapath.components.foldl (Component.process cs) d).word r = 0 := by
  rw [components_eq (q := word r) (fun h => by cases h), List.foldl_append, List.foldl_cons,
    foldl_process_eq]
  apply Eq.trans (word_eq_of_cells fun k hk =>
    get_foldl_process halone (spares_of_mem_behind (word r)) (stage _) hk)
  exact word_process_reset hr hreset _

/-! ## The memory address register -/

/-- Its own component is among those that spare it: the reset is not one of its controls. -/
theorem spares_mar : ∀ c ∈ Datapath.components, (word .mar).Spares c := by
  decide

theorem mar_foldl_process (halone : Alone cs (word .mar)) (d : Datapath) :
    (Datapath.components.foldl (Component.process cs) d).mar = d.mar := by
  rw [foldl_process_eq]
  exact word_eq_of_cells (r := .mar) fun _ hk => get_foldl_process halone spares_mar _ hk

theorem mar_foldl_read (halone : Alone cs (word .mar)) (b : Buses) (d : Datapath) :
    (back.foldl (Component.read cs b) d).mar = d.mar := by
  have hmar : cs WordRegister.mar.read = false :=
    eq_false_of_alone halone (by decide) (by decide)
  have hlow : cs ByteRegister.marLow.read = false :=
    eq_false_of_alone halone (by decide) (by decide)
  have hhigh : cs ByteRegister.marHigh.read = false :=
    eq_false_of_alone halone (by decide) (by decide)
  simp only [back, List.foldl_cons, List.foldl_nil, Component.read, hmar, hlow, hhigh,
    Bool.false_eq_true, if_false]
  split <;> rfl

/-- A step ends with the rest of the Read phase, which starts from the old address, and the Process
phase. -/
theorem exists_finish {d d' : Datapath} (h : d.step cs = .ok d') :
    ∃ b d₀, d' = Datapath.finish cs b d₀ ∧ d₀.mar = d.mar := by
  have hmar := Datapath.mar_untilStore cs d
  rw [Datapath.step_eq] at h
  simp only at h
  split at h
  · cases hw : (d.untilStore cs).1.memory.writeAt (d.untilStore cs).1.mar
        ((d.untilStore cs).2.data.getD 0) with
    | error e =>
        rw [hw] at h
        cases h
    | ok memory =>
        rw [hw] at h
        cases h
        exact ⟨_, _, rfl, hmar⟩
  · cases h
    exact ⟨_, _, rfl, hmar⟩

/-- Its reset leaves the memory address register as it was before the tick. -/
theorem mar_step (halone : Alone cs (word .mar)) {d d' : Datapath} (h : d.step cs = .ok d') :
    d'.mar = d.mar := by
  rcases exists_finish h with ⟨b, d₀, rfl, hmar⟩
  calc (Datapath.finish cs b d₀).mar
      = (back.foldl (Component.read cs b) d₀).mar := mar_foldl_process halone _
    _ = d₀.mar := mar_foldl_read halone b d₀
    _ = d.mar := hmar

/-! ## One tick of the CPU -/

theorem not_covers_irqLine (q : ResetPort) : ¬q.Covers .irqLine := by
  cases q with
  | byte r => cases r <;> decide
  | word r => cases r <;> decide
  | sc => decide

/-- The interrupt line, which the devices drive, is under the path of no port. -/
theorem alone_assertedBy {q : ResetPort} {cpu : Cpu} {controls : List Control}
    (honly : ∀ e ∈ controls, q.Covers e → e = q.control) :
    Alone (cpu.assertedBy controls) q := by
  intro e hasserted hcovers
  unfold Cpu.assertedBy at hasserted
  split at hasserted
  · rename_i hline
    subst hline
    exact absurd hcovers q.not_covers_irqLine
  · exact honly e (of_decide_eq_true hasserted) hcovers

theorem assertedBy_control {q : ResetPort} {cpu : Cpu} {controls : List Control}
    (hreset : q.control ∈ controls) : cpu.assertedBy controls q.control = true := by
  have hne : q.control ≠ .irqLine := by
    cases q <;> simp [control]
  unfold Cpu.assertedBy
  rw [if_neg hne, decide_eq_true_eq]
  exact hreset

end ResetPort

namespace Cpu

section Compiled

variable {c : Compiler} {is : InstructionSet} {p : MicrocodeProgram} {cpu cpu' : Cpu}
  {controls : List Control} {q : ResetPort}

/-- A reset clears its register, except for the one of the memory address register, which does
nothing: that register is zero after the tick when it was zero before. -/
theorem reset_clears_iff (hc : c.compile is = .ok p) (hload : cpu.Loaded p)
    (hrun : cpu.halted = false) (hl : cpu.lookup = .ok controls) (hreset : q.control ∈ controls)
    (honly : ∀ e ∈ controls, q.Covers e → e = q.control) (ht : tick cpu = .ok () cpu') :
    q.IsZero cpu' ↔ q ≠ .word .mar ∨ cpu.datapath.mar = 0 := by
  have halone := @ResetPort.alone_assertedBy q cpu controls honly
  have hcontrol := @ResetPort.assertedBy_control q cpu controls hreset
  rcases tick_cases hc hload with ⟨hhalted, -⟩ | ⟨e, -, -, he⟩ | ⟨controls', d, -, hl', hd, ht'⟩ |
    ⟨e, s, -, he⟩
  · cases hrun.symm.trans hhalted
  · cases ht.symm.trans he
  · cases hl.symm.trans hl'
    cases ht.symm.trans ht'
    -- the reset acts in the Process phase, after which nothing covers the register
    rcases ResetPort.exists_finish hd with ⟨b, d₀, hfinish, -⟩
    cases q with
    | byte r =>
        have hzero : d.byte r = 0 := by
          rw [hfinish]
          exact ResetPort.byte_foldl_process hcontrol halone _
        exact iff_of_true hzero (.inl fun h => by cases h)
    | word r =>
        by_cases hr : r = .mar
        · -- what is left in the register is what was there
          subst hr
          have hkept := ResetPort.mar_step halone hd
          show d.mar = 0 ↔ _
          rw [hkept]
          simp
        · have hzero : d.word r = 0 := by
            rw [hfinish]
            exact ResetPort.word_foldl_process hr hcontrol halone _
          apply iff_of_true hzero
          left
          intro h
          cases h
          exact hr rfl
    | sc =>
        have hzero : (cpu.controller.next (cpu.assertedBy controls) d).sc = 0 := if_pos hcontrol
        exact iff_of_true hzero (.inl fun h => by cases h)
  · cases ht.symm.trans he

end Compiled

/-! ## A reset of the memory address register -/

def resettingVariant : InstructionVariant :=
  ⟨[], [⟨0, [.marInterruptVector, ByteRegister.x.reset]⟩, ⟨0, [WordRegister.mar.reset]⟩], sorted_nil⟩

/-- An opcode that loads the memory address register and then resets it. -/
def resettingSet : InstructionSet where
  fetchPreamble := []
  instructions := Isa.instructions.map fun i =>
    ⟨i.opcode, if i.opcode = 0x02 then [resettingVariant] else []⟩

def resettingProgram : MicrocodeProgram :=
  ⟨[(0x20000, encodeControls [.marInterruptVector, ByteRegister.x.reset, .scIncrement]),
    (0x20100, encodeControls [WordRegister.mar.reset, .scReset])], controlPaths, []⟩

theorem compile_resettingSet :
    Compiler.statusless.compile resettingSet = .ok resettingProgram := by
  have hvalid : Compiler.statusless.runAllValidators (Compiler.statusless.prepared resettingSet) =
      .ok () := by
    refine runAllValidators_of_opcodes ?_ (by decide +kernel) (by decide +kernel)
      (by decide +kernel) (by decide +kernel) (by decide +kernel)
    rw [Compiler.opcodes_prepared, resettingSet, List.map_map]
    rfl
  exact bind_eq_ok.mpr ⟨_, Compiler.optimizedIr_of_valid rfl hvalid (.inr (.inl rfl)),
    by decide +kernel⟩

theorem optimizedSteps_resettingVariant :
    Compiler.statusless.optimizedSteps resettingSet.fetchPreamble resettingVariant.steps =
      [⟨0, [.marInterruptVector, ByteRegister.x.reset, .scIncrement]⟩,
        ⟨0, [WordRegister.mar.reset, .scReset]⟩] := by
  decide

/-- The two steps of the opcode, from the first tick of a new CPU on. -/
theorem exists_resetting :
    ∃ cpu t u, Cpu.new resettingProgram [] [] = .ok cpu ∧ tick cpu = .ok () t ∧
      t.lookup = .ok (InstructionMemory.decode
        (encodeControls [WordRegister.mar.reset, .scReset])) ∧
      tick t = .ok () u ∧ u.datapath.mar = 0xFFFE := by
  rcases exists_initial compile_resettingSet [] (by decide) rfl with ⟨m, hnew⟩
  have hmem : (⟨0x02, [resettingVariant]⟩ : Instruction) ∈ resettingSet.instructions := by
    decide
  have hat : AtStep resettingSet ⟨0x02, [resettingVariant]⟩ resettingVariant 0
      (initial bareMemory m) := ⟨hmem, List.mem_singleton_self _, rfl, rfl, rfl⟩
  have hs : (Compiler.statusless.optimizedSteps resettingSet.fetchPreamble
      resettingVariant.steps)[0]? =
        some ⟨0, [.marInterruptVector, ByteRegister.x.reset, .scIncrement]⟩ := by
    rw [optimizedSteps_resettingVariant]
    rfl
  let d : Datapath := { (initial bareMemory m).datapath with mar := 0xFFFE }
  have htick := exists_tick_of_atStep compile_resettingSet (loaded_new hnew) rfl hat hs
    (d := d) (by rw [Datapath.step_on]; rfl)
  have hsc := sc_of_atStep rfl rfl compile_resettingSet hat hs d
  have hload := loaded_step compile_resettingSet (loaded_new hnew) (.tick htick)
  have hat' : AtStep resettingSet ⟨0x02, [resettingVariant]⟩ resettingVariant 1
      ((initial bareMemory m).afterTick ((initial bareMemory m).assertedBy
        [.marInterruptVector, ByteRegister.x.reset, .scIncrement]) d) :=
    ⟨hmem, List.mem_singleton_self _, rfl, rfl, hsc⟩
  have hs' : (Compiler.statusless.optimizedSteps resettingSet.fetchPreamble
      resettingVariant.steps)[1]? = some ⟨0, [WordRegister.mar.reset, .scReset]⟩ := by
    rw [optimizedSteps_resettingVariant]
    rfl
  have htick' := exists_tick_of_atStep compile_resettingSet hload rfl hat' hs' (d := d)
    (by rw [Datapath.step_on]; rfl)
  have hlookup' := lookup_of_atStep compile_resettingSet hload hat' hs'
  exact ⟨_, _, _, hnew, htick, hlookup', htick', rfl⟩

/-- Two ticks after its start a CPU has asserted the reset of the memory address register alone, and
the register holds the address of the interrupt vector. -/
theorem not_reset_mar :
    ∃ cpu t u controls, Compiler.statusless.compile resettingSet = .ok resettingProgram ∧
      Cpu.new resettingProgram [] [] = .ok cpu ∧ tick cpu = .ok () t ∧ t.lookup = .ok controls ∧
      WordRegister.mar.reset ∈ controls ∧
      (∀ e ∈ controls, (ResetPort.word .mar).Covers e → e = WordRegister.mar.reset) ∧
      tick t = .ok () u ∧ u.datapath.mar = 0xFFFE := by
  obtain ⟨cpu, t, u, hnew, htick, hlookup, htick', hmar⟩ := exists_resetting
  have halone : ∀ e ∈ [WordRegister.mar.reset, Control.scReset],
      (ResetPort.word .mar).Covers e → e = WordRegister.mar.reset := by
    decide
  exact ⟨cpu, t, u, _, compile_resettingSet, hnew, htick, hlookup,
    InstructionMemory.mem_decode_encodeControls.mpr List.mem_cons_self,
    fun e he => halone e (InstructionMemory.mem_decode_encodeControls.mp he), htick', hmar⟩

/-- A register X that is not zero, reset by the first tick. -/
theorem reset_clears_x :
    ∃ cpu t : Cpu, cpu.Loaded resettingProgram ∧ cpu.datapath.x = 0x05 ∧ tick cpu = .ok () t ∧
      t.datapath.x = 0 := by
  obtain ⟨m, hnew⟩ := exists_initial compile_resettingSet [] (by decide) rfl
  have hmem : (⟨0x02, [resettingVariant]⟩ : Instruction) ∈ resettingSet.instructions := by
    decide
  let d : Datapath := { (initial bareMemory m).datapath with x := 0x05 }
  have hnewLoad := loaded_new hnew
  have hload : Loaded resettingProgram { initial bareMemory m with datapath := d } :=
    ⟨⟨hnewLoad.idle.asserted, hnewLoad.idle.dataBus, hnewLoad.idle.addressBus⟩,
      hnewLoad.instructionMemory⟩
  have hat : AtStep resettingSet ⟨0x02, [resettingVariant]⟩ resettingVariant 0
      { initial bareMemory m with datapath := d } := ⟨hmem, List.mem_singleton_self _, rfl, rfl, rfl⟩
  have hs : (Compiler.statusless.optimizedSteps resettingSet.fetchPreamble
      resettingVariant.steps)[0]? =
        some ⟨0, [.marInterruptVector, ByteRegister.x.reset, .scIncrement]⟩ := by
    rw [optimizedSteps_resettingVariant]
    rfl
  have htick := exists_tick_of_atStep compile_resettingSet hload rfl hat hs
    (d := { d with mar := 0xFFFE, x := 0 }) (by rw [Datapath.step_on]; rfl)
  have hlookup := lookup_of_atStep compile_resettingSet hload hat hs
  have halone : ∀ e ∈ [Control.marInterruptVector, ByteRegister.x.reset, .scIncrement],
      (ResetPort.byte .x).Covers e → e = ByteRegister.x.reset := by
    decide
  have hzero := (reset_clears_iff compile_resettingSet hload rfl hlookup
    (InstructionMemory.mem_decode_encodeControls.mpr (by decide))
    (fun e he => halone e (InstructionMemory.mem_decode_encodeControls.mp he)) htick).mpr
      (.inl (by decide))
  exact ⟨_, _, hload, rfl, htick, hzero⟩

end Cpu

end Irata2.Sim
