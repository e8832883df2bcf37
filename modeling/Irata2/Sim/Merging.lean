import Irata2.Microcode.Passes
import Irata2.Sim.Execute

/-!
# Merging steps

A step that is merged into the one before it acts in the Process phase only, and the one before it
acts before that phase, so one tick under both does what the two ticks did.  An input device would
see the difference: it drives the interrupt line at the start of each of the two ticks.
-/

namespace Irata2.Sim

open Hdl Library Microcode
open Datapath (on)
open Library.StateRun

/-! ## Memories without devices -/

namespace Module

variable {size : Nat} {m m' : Module size} {address : Word} {v : Byte}

theorem irqLevel_read {path : String} (h : m.read path address = .ok (v, m'))
    (hm : m.irqLevel = none) : m'.irqLevel = none := by
  cases m with
  | ram cells =>
      by_cases hlt : address.toNat < size
      · simp only [read, dif_pos hlt] at h
        cases h
        rfl
      · simp only [read, dif_neg hlt] at h
        cases h
  | rom storage =>
      by_cases hlt : address.toNat < size
      · simp only [read, dif_pos hlt] at h
        cases h
        rfl
      · simp only [read, dif_neg hlt] at h
        cases h
  | inputDevice d => cases hm
  | vectorGraphicsCoprocessor d =>
      cases h
      rfl

theorem irqLevel_write (h : m.write address v = .ok m') (hm : m.irqLevel = none) :
    m'.irqLevel = none := by
  cases m with
  | ram cells =>
      by_cases hlt : address.toNat < size
      · simp only [write, dif_pos hlt] at h
        cases h
        rfl
      · simp only [write, dif_neg hlt] at h
        cases h
  | rom storage => cases h
  | inputDevice d => cases hm
  | vectorGraphicsCoprocessor d =>
      cases h
      rfl

end Module

namespace Memory

theorem irqLevels_eq_nil {m : Memory} :
    m.irqLevels = [] ↔ ∀ r ∈ m.regions, r.module.irqLevel = none := by
  unfold irqLevels
  exact List.filterMap_eq_nil_iff

/-- A memory in which no module drives the interrupt line stays one. -/
theorem irqLevels_of_forall₂ {m m' : Memory}
    (h : List.Forall₂ (fun r r' : Region => r.module.irqLevel = none → r'.module.irqLevel = none)
      m.regions m'.regions) (hm : m.irqLevels = []) : m'.irqLevels = [] := by
  rw [irqLevels_eq_nil] at hm ⊢
  generalize m.regions = rs at h hm
  generalize m'.regions = rs' at h
  induction h with
  | nil => exact fun r hr => (by cases hr)
  | cons hr _ ih =>
      intro r hmem
      rcases List.mem_cons.mp hmem with rfl | hmem
      · exact hr (hm _ List.mem_cons_self)
      · exact ih (fun r' hr' => hm r' (List.mem_cons_of_mem _ hr')) r hmem

theorem irqLevels_afterRead {m : Memory} (hm : m.irqLevels = []) (address : Word) :
    (m.afterRead address).irqLevels = [] := by
  refine irqLevels_of_forall₂ ?_ hm
  refine forall₂_readRegions (fun _ => id) (fun r r' v hr => ?_) (m.readRegions_eq address)
  rcases Region.read_eq hr with ⟨module, hmodule, rfl⟩
  exact Module.irqLevel_read hmodule

theorem irqLevels_writeAt {m m' : Memory} {address : Word} {v : Byte}
    (h : m.writeAt address v = .ok m') (hm : m.irqLevels = []) : m'.irqLevels = [] := by
  refine irqLevels_of_forall₂ ?_ hm
  refine forall₂_writeRegions (fun _ => id) (fun r r' hr => ?_) (writeAt_eq_ok.mp h)
  rcases Region.write_eq hr with ⟨module, hmodule, rfl⟩
  exact Module.irqLevel_write hmodule

end Memory

namespace Component

theorem memory_load (d : Datapath) (r : ByteRegister) (v : Byte) :
    (d.load r v).memory = d.memory := by
  cases r <;> rfl

theorem memory_setWord (d : Datapath) (r : WordRegister) (v : Word) :
    (d.setWord r v).memory = d.memory := by
  cases r <;> rfl

theorem memory_read (cs : Control → Bool) (b : Buses) (d : Datapath) (c : Component) :
    (c.read cs b d).memory = d.memory := by
  cases c with
  | byteRegister r =>
      simp only [read]
      split
      · exact memory_load d r _
      · rfl
  | wordRegister r =>
      simp only [read]
      split
      · exact memory_setWord d r _
      · rfl
  | _ => rfl

theorem memory_process (cs : Control → Bool) (d : Datapath) (c : Component) :
    (c.process cs d).memory = d.memory := by
  cases c with
  | byteRegister r =>
      by_cases hsp : r = .sp
      · subst hsp
        simp only [process]
        split_ifs <;> rfl
      · rw [process_byteRegister cs d hsp]
        split
        · cases r <;> rfl
        · rfl
  | wordRegister r =>
      cases r with
      | _ =>
          simp only [process]
          split_ifs <;> rfl
  | statusBit f =>
      simp only [process]
      split <;> rfl
  | _ => rfl

end Component

namespace Datapath

/-- What a read and a store keep of the memory, a step keeps. -/
theorem step_memory {P : Memory → Prop} {cs : Control → Bool} {d d' : Datapath}
    (hread : ∀ m address, P m → P (m.afterRead address))
    (hwrite : ∀ m m' address v, m.writeAt address v = .ok m' → P m → P m')
    (h : d.step cs = .ok d') (hd : P d.memory) : P d'.memory := by
  -- only the memory component touches the memory
  have hfold : ∀ (f : Datapath → Component → Datapath),
      (∀ d c, (f d c).memory = d.memory) → ∀ (l : List Component) (d : Datapath),
        (l.foldl f d).memory = d.memory := by
    intro f hf l
    induction l with
    | nil => exact fun _ => rfl
    | cons c l ih => exact fun d => (ih _).trans (hf d c)
  have hdrive : ∀ (l : List Component) (w : Datapath × Buses), P w.1.memory →
      P (l.foldl (fun w c => c.write cs w) w).1.memory := by
    intro l
    induction l with
    | nil => exact fun _ hw => hw
    | cons c l ih =>
        intro w hw
        refine ih _ ?_
        cases c with
        | memory =>
            simp only [Component.write]
            split
            · exact hread _ _ hw
            · exact hw
        | byteRegister r =>
            simp only [Component.write]
            split <;> exact hw
        | wordRegister r =>
            simp only [Component.write]
            split <;> exact hw
        | _ => exact hw
  have huntil : P (d.untilStore cs).1.memory := by
    show P (Component.front.foldl (Component.read cs _) _).memory
    rw [hfold _ fun d c => Component.memory_read cs _ d c]
    exact hdrive components _ hd
  have hfinish : ∀ b d, (finish cs b d).memory = d.memory := fun b d =>
    (hfold _ (Component.memory_process cs) components _).trans
      (hfold _ (fun d c => Component.memory_read cs b d c) Component.back d)
  rw [step_eq] at h
  dsimp only at h
  -- with the store in the middle, or without one
  split at h
  · cases hm : Memory.writeAt _ _ _ with
    | error e =>
        rw [hm] at h
        cases h
    | ok m =>
        rw [hm] at h
        cases h
        rw [hfinish]
        exact hwrite _ _ _ _ hm huntil
  · cases h
    rw [hfinish]
    exact huntil

/-! ## One tick under both -/

/-- The controls of a list are those of two others, of which the first act before the Process phase
and the second in it. -/
structure Splits (l a b : List Control) : Prop where
  mem : ∀ c, c ∈ l ↔ c ∈ a ∨ c ∈ b
  before : ∀ c ∈ a, c.phase ≠ .process
  process : ∀ c ∈ b, c.phase = .process

namespace Splits

variable {l a b : List Control}

theorem on_first (h : Splits l a b) {c : Control} (hc : c.phase ≠ .process) : on l c = on a c := by
  unfold on
  rw [decide_eq_decide, h.mem]
  exact or_iff_left fun hb => hc (h.process c hb)

theorem on_second (h : Splits l a b) {c : Control} (hc : c.phase = .process) :
    on l c = on b c := by
  unfold on
  rw [decide_eq_decide, h.mem]
  exact or_iff_right fun ha => h.before c ha hc

end Splits

theorem writes_nil (x : Component) : writes [] x = false := by
  unfold writes
  cases x.writeControl <;> rfl

theorem reads_nil (x : Component) : reads [] x = false := by
  unfold reads
  cases x.readControl <;> rfl

theorem processes_nil (x : Component) : processes [] x = false := by
  cases x with
  | byteRegister r => cases r <;> rfl
  | wordRegister r => cases r <;> rfl
  | _ => rfl

theorem foldl_process_of_no_process {a : List Control} (ha : ∀ c ∈ a, c.phase ≠ .process)
    (l : List Component) (d : Datapath) : l.foldl (Component.process (on a)) d = d := by
  refine List.foldl_fixed' (fun x => ?_) l
  have hnil : Component.process (on a) d x = Component.process (on []) d x :=
    Component.process_congr (fun c _ hc => decide_eq_decide.mpr
      (iff_of_false (fun h => ha c h hc) List.not_mem_nil)) d x
  exact hnil.trans (process_of_not_processes (processes_nil x) d)

theorem untilStore_of_process {b : List Control} (hb : ∀ c ∈ b, c.phase = .process)
    (d : Datapath) : d.untilStore (on b) = (d, Buses.empty) := by
  have hnil : d.untilStore (on b) = d.untilStore (on []) :=
    untilStore_congr (fun c _ hc => decide_eq_decide.mpr
      (iff_of_false (fun h => hc (hb c h)) List.not_mem_nil)) d
  have hdrive : d.drive (on []) = (d, Buses.empty) :=
    List.foldl_fixed' (fun x => write_of_not_writes (writes_nil x) _) components
  rw [hnil]
  unfold untilStore
  rw [hdrive]
  exact Prod.ext (List.foldl_fixed' (fun x => read_of_not_reads (reads_nil x) _ d) _) rfl

/-- A step without Write and Read controls is its Process phase. -/
theorem step_of_process {b : List Control} (hb : ∀ c ∈ b, c.phase = .process) (d : Datapath) :
    d.step (on b) = .ok (components.foldl (Component.process (on b)) d) := by
  have hstore : ¬on b .memoryRead = true := fun h => by
    cases hb _ (of_decide_eq_true h)
  have hread : ∀ x, Component.read (on b) Buses.empty d x = d := by
    intro x
    have hnil : Component.read (on b) Buses.empty d x = Component.read (on []) Buses.empty d x :=
      Component.read_congr (fun c _ hc => decide_eq_decide.mpr
        (iff_of_false (fun h => by cases hc.symm.trans (hb c h)) List.not_mem_nil)) _ d x
    exact hnil.trans (read_of_not_reads (reads_nil x) _ d)
  rw [Datapath.step_eq, untilStore_of_process hb]
  dsimp only
  rw [if_neg hstore]
  unfold finish
  rw [List.foldl_fixed' hread]

/-- One step under all controls does what the two steps do. -/
theorem step_eq_of_splits {l a b : List Control} (h : Splits l a b) (d : Datapath) :
    d.step (on l) = d.step (on a) >>= fun d' => d'.step (on b) := by
  have huntil : d.untilStore (on l) = d.untilStore (on a) :=
    untilStore_congr (fun c _ hc => h.on_first hc) d
  have hfinish : ∀ w d, finish (on l) w d =
      components.foldl (Component.process (on b)) (finish (on a) w d) := by
    intro w d
    unfold finish
    rw [foldl_process_of_no_process h.before,
      foldl_congr_fun (Component.read_congr (fun c _ hc => h.on_first (by rw [hc]; decide)) w)
        Component.back]
    exact foldl_congr_fun (Component.process_congr fun c _ hc => h.on_second hc) components _
  rw [step_eq, step_eq, huntil, h.on_first (by decide : Control.memoryRead.phase ≠ .process)]
  generalize d.untilStore (on a) = w
  dsimp only
  by_cases hstore : on a .memoryRead = true
  · rw [if_pos hstore, if_pos hstore]
    cases Memory.writeAt _ _ _ with
    | error e => rfl
    | ok m =>
        show Except.ok _ = Datapath.step (on b) _
        rw [step_of_process h.process]
        exact congrArg Except.ok (hfinish _ _)
  · rw [if_neg hstore, if_neg hstore]
    show Except.ok _ = Datapath.step (on b) _
    rw [step_of_process h.process, hfinish]

end Datapath

namespace Machine

open Datapath (Splits)

/-- Two lists with the same controls are one step. -/
theorem tick_congr {l l' : List Control} (h : ∀ c, c ∈ l ↔ c ∈ l') (m : Machine) :
    m.tick l = m.tick l' := by
  have hon : on l = on l' := by
    funext c
    exact decide_eq_decide.mpr (h c)
  have hline : m.irqLevel l = m.irqLevel l' := by
    unfold irqLevel
    rw [decide_eq_decide.mpr (h .irqLine)]
  unfold tick afterTick atStore
  simp only [hon, hline, h]

/-- A step without controls does nothing. -/
theorem tick_nil {m : Machine} (hm : m.datapath.memory.irqLevels = []) : m.tick [] = .ok m := by
  by_cases hh : m.halted = true
  · exact tick_of_halted hh []
  · rw [Bool.not_eq_true] at hh
    have hline : m.irqLevel [] = m.irqLine := by
      unfold irqLevel
      rw [hm]
      exact Bool.false_or _
    rw [tick_of_step hh (Microstep.step_nil m.datapath)]
    unfold afterTick
    rw [hline]
    simp

theorem irqLevels_tick {m m' : Machine} {l : List Control} (h : m.tick l = .ok m')
    (hm : m.datapath.memory.irqLevels = []) : m'.datapath.memory.irqLevels = [] := by
  by_cases hh : m.halted = true
  · cases (tick_of_halted hh l).symm.trans h
    exact hm
  · rw [Bool.not_eq_true] at hh
    cases hd : m.datapath.step (on l) with
    | ok d =>
        cases (tick_of_step hh hd).symm.trans h
        exact Datapath.step_memory (P := fun m => m.irqLevels = [])
          (fun _ address hm => Memory.irqLevels_afterRead hm address)
          (fun _ _ _ _ hw hm => Memory.irqLevels_writeAt hw hm) hd hm
    | error e => cases (tick_of_step_error hh hd).symm.trans h

/-- One tick under all controls does what the two ticks do. -/
theorem tick_of_splits {l a b : List Control} (h : Splits l a b) {m : Machine}
    (hm : m.datapath.memory.irqLevels = []) : m.tick l = m.tick a >>= tick b := by
  by_cases hh : m.halted = true
  · rw [tick_of_halted hh, tick_of_halted hh]
    exact (tick_of_halted hh b).symm
  · rw [Bool.not_eq_true] at hh
    have hstep := Datapath.step_eq_of_splits h m.datapath
    have hfirst : ∀ {c : Control}, c.phase = .process → c ∉ a := fun hc ha => h.before _ ha hc
    have hsecond : ∀ {c : Control}, c.phase = .process → (c ∈ l ↔ c ∈ b) := fun hc =>
      (h.mem _).trans (or_iff_right (hfirst hc))
    -- without devices the line only changes when a step asserts it
    have hline : ∀ (m : Machine) (l : List Control), m.datapath.memory.irqLevels = [] →
        m.irqLevel l = (decide (Control.irqLine ∈ l) || m.irqLine) := by
      intro m l hm
      unfold irqLevel
      rw [hm]
      rfl
    cases hd : m.datapath.step (on a) with
    | error e =>
        rw [hd] at hstep
        rw [tick_of_step_error hh hd, tick_of_step_error hh hstep]
        have huntil : m.datapath.untilStore (on l) = m.datapath.untilStore (on a) :=
          Datapath.untilStore_congr (fun c _ hc => h.on_first hc) m.datapath
        unfold atStore
        rw [huntil]
        rfl
    | ok d =>
        rw [hd] at hstep
        have hmid : m.afterTick a d = { m with datapath := d } := by
          unfold afterTick
          rw [hline m a hm]
          simp [hfirst (c := ByteRegister.ir.reset) rfl, hfirst (c := .instructionStart) rfl,
            hfirst (c := .scReset) rfl, hfirst (c := .scIncrement) rfl,
            hfirst (c := .scDecrement) rfl, hfirst (c := .ipcLatch) rfl,
            hfirst (c := .irqLine) rfl, hfirst (c := .halt) rfl, hfirst (c := .crash) rfl]
        have hd' : d.memory.irqLevels = [] := by
          have hkeep := irqLevels_tick (tick_of_step hh hd) hm
          rw [hmid] at hkeep
          exact hkeep
        have hsame : m.irqLevel l = irqLevel b { m with datapath := d } := by
          rw [hline m l hm, hline { m with datapath := d } b hd',
            decide_eq_decide.mpr (hsecond (c := .irqLine) rfl)]
        have hsecondStep := Datapath.step_of_process h.process d
        replace hstep : m.datapath.step (on l) = .ok _ := hstep.trans hsecondStep
        rw [tick_of_step hh hstep, tick_of_step hh hd, hmid]
        show _ = tick b { m with datapath := d }
        rw [@tick_of_step { m with datapath := d } hh _ _ hsecondStep]
        unfold afterTick
        rw [hsame]
        simp [hsecond (c := ByteRegister.ir.reset) rfl, hsecond (c := .instructionStart) rfl,
          hsecond (c := .scReset) rfl, hsecond (c := .scIncrement) rfl,
          hsecond (c := .scDecrement) rfl, hsecond (c := .ipcLatch) rfl,
          hsecond (c := .halt) rfl, hsecond (c := .crash) rfl]

/-- A step that is merged into the one before it is executed in one tick with it. -/
theorem tick_mergeSteps {a b : Step} (hb : BusValid b) (h : canMerge a b = true) {m : Machine}
    (hm : m.datapath.memory.irqLevels = []) :
    m.tick (mergeSteps a b).controls = m.tick a.controls >>= tick b.controls := by
  rcases canMerge_cases hb h with hnil | ⟨hbefore, hprocess⟩
  · have hmem : ∀ c, c ∈ (mergeSteps a b).controls ↔ c ∈ b.controls := by
      intro c
      rw [mem_mergeSteps, hnil]
      exact or_iff_right List.not_mem_nil
    rw [tick_congr hmem, hnil, tick_nil hm]
    rfl
  · exact tick_of_splits ⟨fun _ => mem_mergeSteps, hbefore, hprocess⟩ hm

theorem run_collapseInto {steps : List Step} {last : Step} (hlast : BusValid last)
    (h : ∀ s ∈ steps, BusValid s) {m : Machine} (hm : m.datapath.memory.irqLevels = []) :
    run (collapseInto fuseMergeable last steps) m = run (last :: steps) m := by
  induction steps generalizing last m with
  | nil => rfl
  | cons s steps ih =>
      have hs := h s List.mem_cons_self
      have hrest : ∀ t ∈ steps, BusValid t := fun t ht => h t (List.mem_cons_of_mem s ht)
      by_cases hcan : canMerge last s = true
      · rw [collapseInto_cons_some (if_pos hcan), ih (busValid_mergeSteps hlast hs hcan) hrest hm]
        show m.tick _ >>= run steps = m.tick last.controls >>= fun m' => m'.tick s.controls >>= _
        rw [tick_mergeSteps hs hcan hm]
        cases m.tick last.controls <;> rfl
      · rw [collapseInto_cons_none (if_neg hcan)]
        show m.tick last.controls >>= run _ = m.tick last.controls >>= run (s :: steps)
        cases ht : m.tick last.controls with
        | error e => rfl
        | ok m' => exact ih hs hrest (irqLevels_tick ht hm)

/-- Merging does not change what a list of steps does to a machine without devices. -/
theorem run_mergeAdjacentSteps {steps : List Step} (h : ∀ s ∈ steps, BusValid s) {m : Machine}
    (hm : m.datapath.memory.irqLevels = []) : run (mergeAdjacentSteps steps) m = run steps m := by
  rw [mergeAdjacentSteps_eq]
  cases steps with
  | nil => rfl
  | cons s steps =>
      exact run_collapseInto (h s List.mem_cons_self)
        (fun t ht => h t (List.mem_cons_of_mem s ht)) hm

end Machine

namespace Cpu

/-- Merging does not change what the steps of a variant do: without devices, executing the merged
list leaves the same registers, status, memory and flags, and throws the same errors. -/
theorem execute_mergeAdjacentSteps {steps : List Microcode.Step}
    (h : ∀ s ∈ steps, BusValid s ∧ ConflictFree s) {cpu : Cpu} (hidle : cpu.Idle)
    (hdevices : cpu.datapath.memory.irqLevels = []) :
    outcome (execute (mergeAdjacentSteps steps) cpu) = outcome (execute steps cpu) := by
  have hbus : ∀ s ∈ steps, BusValid s := fun s hs => (h s hs).1
  have hmerged : ∀ s ∈ mergeAdjacentSteps steps, BusValid s := by
    rw [mergeAdjacentSteps_eq]
    refine forall_mem_collapse (fun a b c hc ha hb => ?_) hbus
    rcases fuseMergeable_eq_some hc with ⟨hcan, rfl⟩
    exact busValid_mergeSteps ha hb hcan
  rw [outcome_execute hidle hmerged, outcome_execute hidle hbus,
    Machine.run_mergeAdjacentSteps hbus hdevices]

theorem idle_initial (memory : Memory) (instructionMemory : InstructionMemory) :
    (initial memory instructionMemory).Idle :=
  ⟨fun _ _ => rfl, rfl, rfl⟩

/-- A transfer and the increment after it, which are merged. -/
def transferSteps : List Microcode.Step :=
  [⟨0, [.writeWord .pc, .readWord .mar]⟩, ⟨0, [.pcIncrement]⟩]

example : (mergeAdjacentSteps transferSteps).length = 1 := by decide +kernel

theorem execute_transferSteps :
    outcome (execute (mergeAdjacentSteps transferSteps) (initial bareMemory ⟨[], [], ⟨0, 0⟩⟩)) =
      outcome (execute transferSteps (initial bareMemory ⟨[], [], ⟨0, 0⟩⟩)) := by
  have hvalid : ∀ s ∈ transferSteps, busValidateStep s 0 0 = .ok () ∧
      conflictValidateStep s 0 0 = .ok () := by
    decide +kernel
  exact execute_mergeAdjacentSteps
    (fun s hs => ⟨busValidateStep_eq_ok.mp (hvalid s hs).1,
      conflictValidateStep_eq_ok.mp (hvalid s hs).2⟩)
    (idle_initial bareMemory ⟨[], [], ⟨0, 0⟩⟩) rfl

end Cpu

end Irata2.Sim
