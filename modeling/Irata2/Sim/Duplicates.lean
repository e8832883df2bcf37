import Irata2.Microcode.Passes
import Irata2.Microcode.Program
import Irata2.Sim.Execute

/-!
# Removing repeated steps

The optimizer deletes a step that repeats the one before it, although each of them takes a tick.
The deletion is harmless exactly for the steps that are idempotent, whose second tick changes
nothing; a counter counts once instead of twice.
-/

namespace Irata2.Sim

open Hdl Library Microcode
open Datapath (on)

namespace Machine

/-- The machine up to its step counter, with the interrupt line at the level that the next Control
phase finds. -/
def settled (m : Machine) : Machine :=
  { m with sc := 0, irqLine := m.irqLevel [] }

/-- The end of a run up to the step counter, which only sequences the microcode. -/
def settledEnd :
    Except (SimError × Registers) Machine → Except (SimError × Registers) Machine
  | .ok m => .ok m.settled
  | .error (e, r) => .error (e, { r with sc := 0 })

/-- A second tick under the same controls changes nothing but the step counter. -/
def Idempotent (l : List Control) : Prop :=
  ∀ m : Machine, settledEnd (m.tick l >>= tick l) = settledEnd (m.tick l)

/-- Two runs end alike; the step counters agree unless the CPU has stopped. -/
structure SameEnd (r r' : Except (SimError × Registers) Machine) : Prop where
  settled : settledEnd r = settledEnd r'
  sc : ∀ m m', r = .ok m → r' = .ok m' → m.halted = false → m.sc = m'.sc

theorem SameEnd.refl (r : Except (SimError × Registers) Machine) : SameEnd r r :=
  ⟨rfl, fun _ _ h h' _ => by rw [Except.ok.inj (h.symm.trans h')]⟩

/-! ## Ticks do not see the step counter -/

theorem irqLevel_settled (l : List Control) (m : Machine) :
    m.settled.irqLevel l = m.irqLevel l := by
  show m.datapath.memory.irqLevels.getLast?.getD (_ || m.irqLevel []) = _
  unfold irqLevel
  cases m.datapath.memory.irqLevels.getLast? with
  | none =>
      simp only [Option.getD_none]
      rw [decide_eq_false (p := Control.irqLine ∈ []) List.not_mem_nil, Bool.false_or]
  | some v => rfl

theorem settled_afterTick (l : List Control) (m : Machine) (d : Datapath) :
    (m.settled.afterTick l d).settled = (m.afterTick l d).settled := by
  have hline := irqLevel_settled l m
  have hnext : (m.settled.afterTick l d).irqLevel [] = (m.afterTick l d).irqLevel [] := by
    show d.memory.irqLevels.getLast?.getD (_ || m.settled.irqLevel l) = _
    rw [hline]
    rfl
  unfold settled at hline hnext ⊢
  rw [hnext]
  unfold afterTick
  simp only [hline]

theorem settledEnd_tick (l : List Control) (m : Machine) :
    settledEnd (m.settled.tick l) = settledEnd (m.tick l) := by
  by_cases hh : m.halted = true
  · rw [tick_of_halted hh, @tick_of_halted m.settled hh]
    show Except.ok m.settled.settled = .ok m.settled
    have hline := irqLevel_settled [] m
    unfold settled at hline ⊢
    rw [hline]
  · rw [Bool.not_eq_true] at hh
    cases hd : m.datapath.step (on l) with
    | ok d =>
        rw [tick_of_step hh hd, @tick_of_step m.settled hh _ d hd]
        exact congrArg Except.ok (settled_afterTick l m d)
    | error e =>
        rw [tick_of_step_error hh hd, @tick_of_step_error m.settled hh _ e hd]
        rfl

theorem settledEnd_tick_congr (l : List Control) {m m' : Machine} (h : m.settled = m'.settled) :
    settledEnd (m.tick l) = settledEnd (m'.tick l) := by
  rw [← settledEnd_tick l m, h, settledEnd_tick]

/-- Continuations that do not see the step counter. -/
theorem settledEnd_bind {r r' : Except (SimError × Registers) Machine}
    {f : Machine → Except (SimError × Registers) Machine}
    (hf : ∀ m m', m.settled = m'.settled → settledEnd (f m) = settledEnd (f m'))
    (h : settledEnd r = settledEnd r') : settledEnd (r >>= f) = settledEnd (r' >>= f) := by
  cases r with
  | ok m =>
      cases r' with
      | ok m' => exact hf m m' (Except.ok.inj h)
      | error e => cases h
  | error e =>
      cases r' with
      | ok m' => cases h
      | error e' => exact h

theorem settledEnd_run_congr (steps : List Step) {m m' : Machine} (h : m.settled = m'.settled) :
    settledEnd (run steps m) = settledEnd (run steps m') := by
  induction steps generalizing m m' with
  | nil => exact congrArg Except.ok h
  | cons s steps ih =>
      exact settledEnd_bind (fun _ _ h => ih h) (settledEnd_tick_congr s.controls h)

/-! ## Repeated steps -/

theorem settledEnd_run_collapseInto {last : Step} {steps : List Step}
    (h : (last :: steps).IsChain fun a b => a = b → Idempotent a.controls) (m : Machine) :
    settledEnd (run (collapseInto fuseDuplicate last steps) m) =
      settledEnd (run (last :: steps) m) := by
  induction steps generalizing last m with
  | nil => rfl
  | cons s steps ih =>
      rw [List.isChain_cons_cons] at h
      by_cases hs : s = last
      · subst hs
        rw [collapseInto_cons_some (if_pos rfl), ih h.2]
        show _ = settledEnd (m.tick s.controls >>= fun m' => m'.tick s.controls >>= run steps)
        have hbind : (m.tick s.controls >>= fun m' => m'.tick s.controls >>= run steps) =
            (m.tick s.controls >>= tick s.controls) >>= run steps := by
          cases m.tick s.controls <;> rfl
        rw [hbind]
        exact settledEnd_bind (fun _ _ h => settledEnd_run_congr steps h) (h.1 rfl m).symm
      · rw [collapseInto_cons_none (if_neg hs)]
        show settledEnd (m.tick last.controls >>= run _) =
          settledEnd (m.tick last.controls >>= run (s :: steps))
        cases m.tick last.controls with
        | ok m' => exact ih h.2 m'
        | error e => rfl

/-- A variant whose last step resets the step counter leaves it at zero, unless it stops. -/
theorem sc_run {P : Step → Prop} {steps : List Step} (hne : steps ≠ [])
    (hend : EndsWith P (fun s => .scReset ∈ s.controls) steps) {m m' : Machine}
    (h : run steps m = .ok m') (hh : m'.halted = false) : m'.sc = 0 := by
  induction steps generalizing m with
  | nil => exact absurd rfl hne
  | cons s steps ih =>
      change m.tick s.controls >>= run steps = _ at h
      rcases bind_eq_ok.mp h with ⟨t, ht, hrun⟩
      by_cases hnil : steps = []
      · subst hnil
        cases hrun
        have hreset := hend.1
        rw [if_pos rfl] at hreset
        by_cases hm : m.halted = true
        · cases (tick_of_halted hm s.controls).symm.trans ht
          exact absurd (hm.symm.trans hh) (by decide)
        · rw [Bool.not_eq_true] at hm
          cases hd : m.datapath.step (on s.controls) with
          | ok d =>
              cases (tick_of_step hm hd).symm.trans ht
              exact if_pos hreset
          | error e => cases (tick_of_step_error hm hd).symm.trans ht
      · exact ih hnil hend.2 hrun

theorem sameEnd_removeDuplicateSteps {P : Step → Prop} {steps : List Step}
    (h : steps.IsChain fun a b => a = b → Idempotent a.controls)
    (hend : EndsWith P (fun s => .scReset ∈ s.controls) steps) (m : Machine) :
    SameEnd (run (removeDuplicateSteps steps) m) (run steps m) := by
  cases steps with
  | nil => exact SameEnd.refl _
  | cons s steps =>
      rw [removeDuplicateSteps_eq]
      have hsettled := settledEnd_run_collapseInto h m
      refine ⟨hsettled, fun t t' ht ht' hh => ?_⟩
      have hend' : EndsWith P (fun s => .scReset ∈ s.controls)
          (collapseInto fuseDuplicate s steps) := by
        refine @endsWith_collapse _ fuseDuplicate _ _ ?_ ?_ (s :: steps) hend <;>
        · intro a b c hc hb
          rcases fuseDuplicate_eq_some hc with ⟨rfl, rfl⟩
          exact hb
      have hh' : t'.halted = false := by
        change run (collapseInto fuseDuplicate s steps) m = _ at ht
        rw [ht, ht'] at hsettled
        exact (congrArg (·.halted) (Except.ok.inj hsettled)).symm.trans hh
      rw [sc_run (collapseInto_ne_nil s steps) hend' ht hh,
        sc_run (List.cons_ne_nil s steps) hend ht' hh']

/-- A machine between two ticks of a CPU. -/
def toCpu (m : Machine) : Cpu where
  datapath := m.datapath
  controller := ⟨m.injectInterrupt, m.sc, m.ipc, ⟨[], [], ⟨0, 0⟩⟩⟩
  asserted := fun c => if c = .irqLine then m.irqLine else false
  dataBus := Bus.clear
  addressBus := Bus.clear
  currentPhase := .none
  halted := m.halted
  crashed := m.crashed
  cycleCount := 0
  ipcValid := false
  trace := ⟨0, []⟩

theorem idle_toCpu (m : Machine) : m.toCpu.Idle := by
  refine ⟨fun c hc => if_neg ?_, rfl, rfl⟩
  rintro rfl
  cases hc

end Machine

namespace Cpu

open Machine (SameEnd Idempotent)

/-- The removal of repeated steps leaves what the steps do as it was. -/
def DuplicatesRemovable (steps : List Microcode.Step) : Prop :=
  ∀ cpu : Cpu, cpu.Idle →
    SameEnd (outcome (execute (removeDuplicateSteps steps) cpu)) (outcome (execute steps cpu))

theorem duplicatesRemovable_iff {steps : List Microcode.Step} (h : ∀ s ∈ steps, BusValid s) :
    DuplicatesRemovable steps ↔
      ∀ m : Machine, SameEnd (m.run (removeDuplicateSteps steps)) (m.run steps) := by
  have hremoved : ∀ s ∈ removeDuplicateSteps steps, BusValid s := by
    rw [removeDuplicateSteps_eq]
    refine forall_mem_collapse (fun a b c hc ha _ => ?_) h
    rw [(fuseDuplicate_eq_some hc).2]
    exact ha
  constructor
  · intro hkeep m
    have hm := hkeep m.toCpu m.idle_toCpu
    rw [outcome_execute m.idle_toCpu hremoved, outcome_execute m.idle_toCpu h] at hm
    exact hm
  · intro hkeep cpu hidle
    rw [outcome_execute hidle hremoved, outcome_execute hidle h]
    exact hkeep cpu.machine

/-! ## Which steps may be repeated -/

def stutterSteps (l : List Control) : List Microcode.Step := [⟨0, l⟩, ⟨0, l⟩, ⟨0, [.scReset]⟩]

/-- Every instruction repeats a step and ends. -/
def stutterSet (l : List Control) : InstructionSet where
  fetchPreamble := []
  instructions := Isa.instructions.map fun i => ⟨i.opcode, [⟨[], stutterSteps l, List.Pairwise.nil⟩]⟩

variable {e : StatusEncoder}

theorem eq_stutterSteps {l : List Control} {i : Instruction}
    (hi : i ∈ (stutterSet l).instructions) {v : InstructionVariant} (hv : v ∈ i.variants) :
    v.steps = stutterSteps l := by
  rcases List.mem_map.mp hi with ⟨r, -, rfl⟩
  rw [List.mem_singleton.mp hv]

theorem exists_stutterSteps (l : List Control) :
    ∃ i ∈ (stutterSet l).instructions, ∃ v ∈ i.variants, v.steps = stutterSteps l := by
  rcases List.exists_mem_of_ne_nil Isa.instructions (by decide) with ⟨r, hr⟩
  exact ⟨_, List.mem_map_of_mem hr, _, List.mem_singleton_self _, rfl⟩

theorem valid_stutterSet {l : List Control} (hbus : BusValid ⟨0, l⟩)
    (hconflict : ConflictFree ⟨0, l⟩) (hinc : .scIncrement ∈ l) :
    (Compiler.mk e .scIncrement .scReset).Valid (stutterSet l) where
  preamble := fun s hs => (by cases hs)
  steps := by
    intro i hi v hv s hs
    rw [eq_stutterSteps hi hv] at hs
    have hreset : BusValid ⟨0, [.scReset]⟩ ∧ ConflictFree ⟨0, [.scReset]⟩ :=
      ⟨busValidateStep_eq_ok.mp (show busValidateStep ⟨0, [.scReset]⟩ 0 0 = .ok () by decide),
        conflictValidateStep_eq_ok.mp
          (show conflictValidateStep ⟨0, [.scReset]⟩ 0 0 = .ok () by decide)⟩
    rcases List.mem_cons.mp hs with rfl | hs
    · exact ⟨hbus, hconflict⟩
    · rcases List.mem_cons.mp hs with rfl | hs
      · exact ⟨hbus, hconflict⟩
      · rw [List.mem_singleton.mp hs]
        exact hreset
  preamble_stages := .inl rfl
  stages := by
    intro i hi v hv
    rw [eq_stutterSteps hi hv]
    refine stagesValid_of_zero fun s hs => ?_
    simp only [stutterSteps, List.mem_cons, List.not_mem_nil, or_false] at hs
    rcases hs with rfl | rfl | rfl <;> rfl
  statuses := by
    intro i hi
    refine statusValidateInstruction_of_isUnconditional (.inl ?_)
    rcases List.mem_map.mp hi with ⟨r, -, rfl⟩
    rfl
  coverage := by
    refine isaCoverageValidator_of_perm ?_
    unfold stutterSet
    rw [List.map_map]
    exact List.Perm.refl _
  sequenced := by
    intro i hi v hv
    rw [eq_stutterSteps hi hv]
    unfold stutterSteps
    rw [endsWith_cons_cons, endsWith_cons_cons]
    exact ⟨hinc, hinc, by rw [if_pos rfl]; exact List.mem_singleton_self _, trivial⟩

theorem step_scReset (d : Datapath) : d.step (on [.scReset]) = .ok d := by
  refine (Datapath.step_congr (fun c hc => ?_) d).trans (Microstep.step_nil d)
  refine decide_eq_decide.mpr (iff_of_false (fun h => ?_) List.not_mem_nil)
  rw [List.mem_singleton.mp h] at hc
  cases hc

/-- A step that only resets the step counter. -/
theorem settledEnd_scReset (m : Machine) : Machine.settledEnd (m.tick [.scReset]) = .ok m.settled := by
  by_cases hh : m.halted = true
  · rw [Machine.tick_of_halted hh]
    rfl
  · rw [Bool.not_eq_true] at hh
    rw [Machine.tick_of_step hh (step_scReset m.datapath)]
    have hline : Machine.irqLevel [] (m.afterTick [.scReset] m.datapath) = m.irqLevel [] :=
      Machine.irqLevel_settled [] m
    show Except.ok (Machine.settled _) = _
    unfold Machine.settled
    rw [hline]
    simp [Machine.afterTick]

theorem settledEnd_bind_scReset (r : Except (SimError × Registers) Machine) :
    Machine.settledEnd (r >>= Machine.run [⟨0, [.scReset]⟩]) = Machine.settledEnd r := by
  cases r with
  | error e => rfl
  | ok m =>
      have h := settledEnd_scReset m
      show Machine.settledEnd (m.tick [.scReset] >>= Machine.run []) = .ok m.settled
      rw [← h]
      cases m.tick [.scReset] <;> rfl

theorem removeDuplicateSteps_stutterSteps {l : List Control} (hl : .scIncrement ∈ l) :
    removeDuplicateSteps (stutterSteps l) = [⟨0, l⟩, ⟨0, [.scReset]⟩] := by
  have hne : (⟨0, [.scReset]⟩ : Microcode.Step) ≠ ⟨0, l⟩ := by
    intro heq
    have hcontrols : [Control.scReset] = l := congrArg (·.controls) heq
    rw [← hcontrols] at hl
    cases List.mem_singleton.mp hl
  rw [removeDuplicateSteps_eq]
  show collapseInto fuseDuplicate _ _ = _
  rw [collapseInto_cons_some (if_pos rfl), collapseInto_cons_none (if_neg hne)]
  rfl

/-- What a repeated step does shows after a step that only resets the step counter. -/
theorem idempotent_of_sameEnd {l : List Control} (hl : .scIncrement ∈ l)
    (h : ∀ m : Machine, SameEnd (m.run (removeDuplicateSteps (stutterSteps l)))
      (m.run (stutterSteps l))) : Idempotent l := by
  intro m
  have hsettled := (h m).settled
  rw [removeDuplicateSteps_stutterSteps hl] at hsettled
  have honce : Machine.settledEnd (m.run [⟨0, l⟩, ⟨0, [.scReset]⟩]) =
      Machine.settledEnd (m.tick l) :=
    settledEnd_bind_scReset (m.tick l)
  have htwice : Machine.settledEnd (m.run (stutterSteps l)) =
      Machine.settledEnd (m.tick l >>= Machine.tick l) := by
    rw [← settledEnd_bind_scReset (m.tick l >>= Machine.tick l)]
    unfold stutterSteps
    show Machine.settledEnd (m.tick l >>= fun m' => m'.tick l >>= Machine.run [⟨0, [.scReset]⟩]) = _
    cases m.tick l <;> rfl
  rw [← htwice, ← hsettled, honce]

/-- The removal of repeated steps preserves the meaning of every accepted variant whose repeated
steps are among the given ones exactly when these are idempotent. -/
theorem removeDuplicateSteps_iff (e : StatusEncoder) (T : List Control → Prop) :
    (∀ is, (Compiler.mk e .scIncrement .scReset).runAllValidators is = .ok () →
      ∀ i ∈ is.instructions, ∀ v ∈ i.variants,
        (v.steps.IsChain fun a b => a = b → T a.controls) → DuplicatesRemovable v.steps) ↔
    ∀ l, T l → BusValid ⟨0, l⟩ → ConflictFree ⟨0, l⟩ → .scIncrement ∈ l → Idempotent l := by
  constructor
  · intro h l hl hbus hconflict hinc
    have hvalid := runAllValidators_iff.mpr (@valid_stutterSet e l hbus hconflict hinc)
    rcases exists_stutterSteps l with ⟨i, hi, v, hv, heq⟩
    have hkeep := h _ hvalid i hi v hv ?_
    · rw [heq] at hkeep
      refine idempotent_of_sameEnd hinc ((duplicatesRemovable_iff fun s hs => ?_).mp hkeep)
      exact ((runAllValidators_iff.mp hvalid).steps i hi v hv s (heq ▸ hs)).1
    · rw [heq]
      unfold stutterSteps
      rw [List.isChain_cons_cons, List.isChain_cons_cons]
      exact ⟨fun _ => hl, fun _ => hl, List.isChain_singleton _⟩
  · intro h is hvalid i hi v hv hchain
    have hvalid := runAllValidators_iff.mp hvalid
    rw [duplicatesRemovable_iff fun s hs => (hvalid.steps i hi v hv s hs).1]
    refine Machine.sameEnd_removeDuplicateSteps ?_ (hvalid.sequenced i hi v hv)
    have hends := hvalid.sequenced i hi v hv
    rw [List.isChain_iff_getElem] at hchain ⊢
    intro k hk heq
    -- a step with a step after it increments the step counter
    have hinc := endsWith_iff_getElem?.mp hends k _ (List.getElem?_eq_getElem (by omega))
    rw [if_neg (by omega)] at hinc
    have hs := hvalid.steps i hi v hv _ (List.getElem_mem (show k < v.steps.length by omega))
    exact h _ (hchain k hk heq) hs.1 hs.2 hinc

/-- A repeated step that moves the stack pointer moves it twice, and once after the removal. -/
theorem not_duplicatesRemovable :
    ∃ i ∈ (stutterSet [.spIncrement, .scIncrement]).instructions, ∃ v ∈ i.variants,
      Irata.compiler.runAllValidators (stutterSet [.spIncrement, .scIncrement]) = .ok () ∧
        ∃ cpu : Cpu, cpu.Idle ∧ ∃ m m', outcome (execute v.steps cpu) = .ok m ∧
          outcome (execute (removeDuplicateSteps v.steps) cpu) = .ok m' ∧
          m.datapath.sp = 2 ∧ m'.datapath.sp = 1 := by
  have hbus : BusValid ⟨0, [.spIncrement, .scIncrement]⟩ :=
    busValidateStep_eq_ok.mp (show busValidateStep _ 0 0 = .ok () by decide)
  have hconflict : ConflictFree ⟨0, [.spIncrement, .scIncrement]⟩ :=
    conflictValidateStep_eq_ok.mp (show conflictValidateStep _ 0 0 = .ok () by decide)
  have hvalid := @valid_stutterSet Irata.compiler.statusEncoder _ hbus hconflict (by decide)
  rcases exists_stutterSteps [.spIncrement, .scIncrement] with ⟨i, hi, v, hv, heq⟩
  have hbuses : ∀ s ∈ v.steps, BusValid s := fun s hs => (hvalid.steps i hi v hv s hs).1
  refine ⟨i, hi, v, hv, runAllValidators_iff.mpr hvalid, ?_⟩
  rw [heq] at hbuses ⊢
  rw [removeDuplicateSteps_stutterSteps (by decide)]
  have hsp : ∀ d : Datapath, d.step (on [.spIncrement, .scIncrement]) =
      .ok { d with sp := d.sp + 1 } := by
    intro d
    rw [Datapath.step_on]
    rfl
  have hsp' : ∀ m : Machine, m.halted = false → m.tick [.spIncrement, .scIncrement] =
      .ok (m.afterTick [.spIncrement, .scIncrement] { m.datapath with sp := m.datapath.sp + 1 }) :=
    fun m hm => Machine.tick_of_step hm (hsp _)
  have hreset : ∀ m : Machine, m.halted = false → m.tick [.scReset] =
      .ok (m.afterTick [.scReset] m.datapath) :=
    fun m hm => Machine.tick_of_step hm (step_scReset _)
  refine ⟨initial bareMemory ⟨[], [], ⟨0, 0⟩⟩, ⟨fun _ _ => rfl, rfl, rfl⟩, ?_⟩
  rw [outcome_execute ⟨fun _ _ => rfl, rfl, rfl⟩ hbuses,
    outcome_execute ⟨fun _ _ => rfl, rfl, rfl⟩ fun s hs => hbuses s (List.mem_cons_of_mem _ hs)]
  exact ⟨_, _,
    bind_eq_ok.mpr ⟨_, hsp' _ rfl, bind_eq_ok.mpr ⟨_, hsp' _ rfl,
      bind_eq_ok.mpr ⟨_, hreset _ rfl, rfl⟩⟩⟩,
    bind_eq_ok.mpr ⟨_, hsp' _ rfl, bind_eq_ok.mpr ⟨_, hreset _ rfl, rfl⟩⟩, rfl, rfl⟩

end Cpu

end Irata2.Sim
