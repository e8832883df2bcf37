import Irata2.Sim.Merging
import Irata2.Sim.VisitingOrder

/-!
# A tick in another order

The order of registration is an accident of the constructor.  Under a step of the default
microcode a tick that visits the children in any other order, phase by phase, ends in the same state,
or fails in the same store.  What the registers hold when a store fails depends on the order.
-/

namespace Irata2.Sim

open Hdl Library Library.StateRun Microcode
open Datapath (on)

namespace Component

section Phases

variable {cpu : Cpu} {l l' : List Component}

/-! ## Control -/

/-- What a component does to the asserted controls in the Control phase. -/
def assertedAfter (controls : List Control) (levels : List Bool) (asserted : Control → Bool) :
    Component → Control → Bool
  | controller => fun c => decide (c ∈ controls) || asserted c
  | memory => Function.update asserted .irqLine (levels.getLast?.getD (asserted .irqLine))
  | _ => asserted

theorem forM_tickControl (hp : cpu.currentPhase = .control) {controls : List Control}
    (hl : cpu.lookup = .ok controls) (l : List Component) :
    l.forM tickControl cpu =
      .ok () { cpu with
        asserted := l.foldl (assertedAfter controls cpu.datapath.memory.irqLevels) cpu.asserted } := by
  have h := @forM_of_foldl SimError Cpu Component (Control → Bool) tickControl
    (assertedAfter controls cpu.datapath.memory.irqLevels)
    (fun a => { cpu with asserted := a }) (fun _ _ => True) ?_ l cpu.asserted trivial
  · exact h
  · intro c l a _
    refine ⟨?_, trivial⟩
    cases c with
    | controller =>
        -- the lookup does not depend on what is asserted so far
        have hlookup : Cpu.lookup { cpu with asserted := a } = .ok controls := hl
        exact (bind_of_ok (ofExcept_ok hlookup _)).trans
          (@forM_assertControl { cpu with asserted := a } hp controls)
    | memory =>
        exact @forM_setControl { cpu with asserted := a } hp .irqLine
          cpu.datapath.memory.irqLevels
    | _ => rfl

/-- The microcode does not touch the interrupt line, so the order of the two drivers of controls
does not matter. -/
theorem foldl_assertedAfter_perm {controls : List Control} (hirq : Control.irqLine ∉ controls)
    (levels : List Bool) (hl : l.Perm l') (a : Control → Bool) :
    l.foldl (assertedAfter controls levels) a = l'.foldl (assertedAfter controls levels) a := by
  refine hl.foldl_eq' (fun i _ j _ a => ?_) a
  have hcomm : assertedAfter controls levels (assertedAfter controls levels a .controller) .memory =
      assertedAfter controls levels (assertedAfter controls levels a .memory) .controller := by
    funext c
    by_cases hc : c = .irqLine
    · subst hc
      simp [assertedAfter, hirq]
    · simp [assertedAfter, hc]
  cases i <;> cases j <;> first | rfl | exact hcomm | exact hcomm.symm

/-! ## Write -/

theorem foldl_children_drive (cs : Control → Bool) (d : Datapath) :
    children.foldl (fun w c => c.write cs w) (d, Buses.empty) = d.drive cs := by
  unfold Datapath.drive
  rw [← filter_isActive_children]
  exact foldl_eq_foldl_filter (fun w c h => write_of_not_isActive cs w c h) _ _

theorem forM_tickWrite_perm (hp : cpu.currentPhase = .write) (hb : RespectsBuses cpu.asserted)
    (h : OrderFree cpu.asserted) (hl : l.Perm children) (d : Datapath) :
    l.forM tickWrite (cpu.onBuses (d, Buses.empty)) =
      .ok () (cpu.onBuses (d.drive cpu.asserted)) := by
  have hcount : ∀ bus, (Buses.empty.has bus).toNat + l.countP (drives cpu.asserted bus) ≤ 1 := by
    intro bus
    have hsingle := hb.single bus
    rw [hl.countP_eq]
    cases bus <;> exact (Nat.zero_add _).trans_le hsingle
  rw [forM_tickWrite hp _ _ hcount, foldl_write_perm h hl cpu.controller, foldl_children_drive]

/-! ## Read -/

/-- The datapath with another memory. -/
def withMemory (m : Memory) (d : Datapath) : Datapath := { d with memory := m }

theorem read_withMemory (cs : Control → Bool) (b : Buses) (d : Datapath) (m : Memory)
    (c : Component) : c.read cs b (withMemory m d) = withMemory m (c.read cs b d) := by
  cases c with
  | byteRegister r =>
      simp only [read]
      by_cases hr : cs r.read = true
      · rw [if_pos hr, if_pos hr]
        cases r <;> rfl
      · rw [if_neg hr, if_neg hr]
  | wordRegister r =>
      simp only [read]
      by_cases hr : cs r.read = true
      · rw [if_pos hr, if_pos hr]
        cases r <;> rfl
      · rw [if_neg hr, if_neg hr]
  | _ => rfl

theorem foldl_read_withMemory (cs : Control → Bool) (b : Buses) (d : Datapath) (m : Memory)
    (l : List Component) :
    l.foldl (Component.read cs b) (withMemory m d) =
      withMemory m (l.foldl (Component.read cs b) d) := by
  induction l generalizing d with
  | nil => rfl
  | cons c l ih => rw [List.foldl_cons, List.foldl_cons, read_withMemory, ih]

theorem foldl_read_memory (cs : Control → Bool) (b : Buses) (d : Datapath) (l : List Component) :
    (l.foldl (Component.read cs b) d).memory = d.memory := by
  induction l generalizing d with
  | nil => rfl
  | cons c l ih => rw [List.foldl_cons, ih, memory_read]

/-- A step that stores loads nothing into the memory address register. -/
theorem read_mar {cs : Control → Bool} (h : OrderFree cs) (hr : cs .memoryRead = true) (b : Buses)
    (d : Datapath) (c : Component) : (c.read cs b d).mar = d.mar := by
  have hnot : ∀ k ∈ Cell.ofWord .mar, k ∉ readWrites cs c := by
    intro k hk hmem
    have hne : readWrites cs c ≠ [] := List.ne_nil_of_mem hmem
    have hacting : c ∈ acting := by
      apply mem_acting
      · rintro e rfl
        exact hne rfl
      all_goals
        rintro rfl
        exact hne rfl
    exact h.store hr c (List.mem_filter.mpr ⟨hacting, decide_eq_true hne⟩) k hmem hk
  have hframe := (footprint_read cs c).frame ⟨d, b, ⟨false, 0, 0, ⟨[], [], ⟨0, fun _ => 0⟩⟩⟩⟩
  exact Cell.word_ext (hframe (.byte .marLow) (hnot _ (by decide)))
    (hframe (.byte .marHigh) (hnot _ (by decide)))

theorem foldl_read_mar {cs : Control → Bool} (h : OrderFree cs) (hr : cs .memoryRead = true)
    (b : Buses) (d : Datapath) (l : List Component) :
    (l.foldl (Component.read cs b) d).mar = d.mar := by
  induction l generalizing d with
  | nil => rfl
  | cons c l ih => rw [List.foldl_cons, ih, read_mar h hr]

/-- The Read phase in any order: the loads, and a store to the address from before the phase. -/
theorem forM_tickRead_perm (hp : cpu.currentPhase = .read) (h : OrderFree cpu.asserted)
    (hl : l.Perm children) (d : Datapath) (b : Buses)
    (hb : ∀ c : Component, ∀ bus, c.senses cpu.asserted bus = true → b.has bus = true) :
    let d' := children.foldl (Component.read cpu.asserted b) d
    if cpu.asserted .memoryRead = true then
      match d.memory.writeAt d.mar (b.data.getD 0) with
      | .ok m => l.forM tickRead (cpu.onBuses (d, b)) =
          .ok () (cpu.onBuses (withMemory m d', b))
      | .error e => ∃ t, l.forM tickRead (cpu.onBuses (d, b)) = .error e t ∧
          t.datapath.memory = d.memory
    else l.forM tickRead (cpu.onBuses (d, b)) = .ok () (cpu.onBuses (d', b)) := by
  -- the memory is visited once
  have hcount : l.count .memory = 1 := (hl.count_eq .memory).trans (by decide +kernel)
  have hmem : Component.memory ∈ l := List.count_pos_iff.mp (by omega)
  rcases List.append_of_mem hmem with ⟨l₁, l₂, rfl⟩
  have hne : Component.memory ∉ l₁ ∧ Component.memory ∉ l₂ := by
    rw [List.count_append, List.count_cons_self] at hcount
    exact ⟨List.count_eq_zero.mp (by omega), List.count_eq_zero.mp (by omega)⟩
  have hbefore := forM_tickRead hp d b l₁ (fun c hc hm => hne.1 (hm ▸ hc)) fun c _ => hb c
  have hafter : ∀ d, l₂.forM tickRead (cpu.onBuses (d, b)) = _ := fun d =>
    forM_tickRead hp d b l₂ (fun c hc hm => hne.2 (hm ▸ hc)) fun c _ => hb c
  -- the memory itself loads nothing
  have hfold : l₂.foldl (Component.read cpu.asserted b)
      (l₁.foldl (Component.read cpu.asserted b) d) =
        children.foldl (Component.read cpu.asserted b) d := by
    rw [← foldl_read_perm h hl cpu.controller b d, List.foldl_append, List.foldl_cons]
    rfl
  have hstore := tickRead_memory hp (l₁.foldl (Component.read cpu.asserted b) d) b (hb .memory)
  rw [forM_append_of_ok hbefore]
  by_cases hr : cpu.asserted .memoryRead = true
  · rw [if_pos hr] at hstore ⊢
    -- neither the memory nor the address has changed since the start of the phase
    have hwrite := congrArg₂ (fun m a => Memory.writeAt m a (b.data.getD 0))
      (foldl_read_memory cpu.asserted b d l₁) (foldl_read_mar h hr b d l₁)
    cases hw : d.memory.writeAt d.mar (b.data.getD 0) with
    | ok m =>
        rw [hwrite.trans hw] at hstore
        show (Component.memory :: l₂).forM tickRead _ = _
        rw [forM_cons_of_ok hstore, ← hfold, ← foldl_read_withMemory]
        exact hafter _
    | error e =>
        rw [hwrite.trans hw] at hstore
        exact ⟨_, forM_cons_of_error hstore, foldl_read_memory cpu.asserted b d l₁⟩
  · rw [if_neg hr] at hstore ⊢
    rw [forM_cons_of_ok hstore, hafter, hfold]

/-! ## Process and Clear -/

theorem forM_tickProcess_perm (hp : cpu.currentPhase = .process) (h : OrderFree cpu.asserted)
    (hl : l.Perm children) (s : Datapath × Controller) :
    l.forM tickProcess (cpu.onRegisters s) = children.forM tickProcess (cpu.onRegisters s) := by
  have hrun : ∀ l : List Component, l.forM tickProcess (cpu.onRegisters s) =
      .ok () (cpu.onRegisters (l.foldl (processBoth cpu.asserted) s)) := fun l =>
    forM_of_foldl cpu.onRegisters (P := fun _ _ => True)
      (fun c _ s _ => ⟨tickProcess_eq hp s c, trivial⟩) l s trivial
  rw [hrun, hrun, foldl_process_perm h hl]

theorem forM_tickClear_perm (hl : l.Perm children) (s : Cpu) :
    l.forM tickClear s = children.forM tickClear s := by
  rw [forM_tickClear, forM_tickClear]
  simp only [hl.mem_iff]

end Phases

end Component

namespace Cpu

open SimM Component

/-! ## The tick -/

/-- One phase over the children in the given order. -/
def visit (phase : TickPhase) (l : List Component) (f : Component → SimM Unit) : SimM Unit := do
  enterPhase phase
  l.forM f

theorem visit_run (phase : TickPhase) (l : List Component) (f : Component → SimM Unit)
    (cpu : Cpu) : visit phase l f cpu = l.forM f { cpu with currentPhase := phase } :=
  rfl

/-- `Cpu::Tick` with the children visited in the given order in each phase. -/
def tickIn (order : TickPhase → List Component) : SimM Unit := do
  if (← get).halted then pure ()
  else
    visit .control (order .control) tickControl
    visit .write (order .write) tickWrite
    visit .read (order .read) tickRead
    visit .process (order .process) tickProcess
    processCpu
    visit .clear (order .clear) tickClear
    endTick

theorem tickIn_run {cpu : Cpu} (h : cpu.halted = false) (order : TickPhase → List Component) :
    tickIn order cpu = (visit .control (order .control) tickControl >>= fun _ =>
      visit .write (order .write) tickWrite >>= fun _ =>
      visit .read (order .read) tickRead >>= fun _ =>
      visit .process (order .process) tickProcess >>= fun _ =>
      processCpu >>= fun _ => visit .clear (order .clear) tickClear >>= fun _ => endTick) cpu := by
  show (if cpu.halted = true then _ else _ : SimM Unit) cpu = _
  rw [if_neg (by rw [h]; decide)]

/-- The state that a tick leaves, when it completes and when it throws. -/
def stateLeft : EStateM.Result SimError Cpu Unit → Cpu
  | .ok _ cpu => cpu
  | .error _ cpu => cpu

/-- How a tick ends: in a state, or in an error with the memory as it is then. -/
def ending : EStateM.Result SimError Cpu Unit → Except (SimError × Memory) Cpu
  | .ok _ cpu => .ok cpu
  | .error e cpu => .error (e, cpu.datapath.memory)

theorem ending_eq_ok {r : EStateM.Result SimError Cpu Unit} {t : Cpu} :
    ending r = .ok t ↔ r = .ok () t := by
  cases r with
  | ok _ u =>
      constructor
      · intro h
        cases h
        rfl
      · intro h
        cases h
        rfl
  | error e u =>
      constructor
      · intro h
        cases h
      · intro h
        cases h

theorem ending_eq_error {r : EStateM.Result SimError Cpu Unit} {e : SimError} {m : Memory} :
    ending r = .error (e, m) ↔ ∃ t, r = .error e t ∧ t.datapath.memory = m := by
  cases r with
  | ok _ u =>
      constructor
      · intro h
        cases h
      · rintro ⟨t, h, -⟩
        cases h
  | error e' u =>
      constructor
      · intro h
        cases h
        exact ⟨u, rfl, rfl⟩
      · rintro ⟨t, h, rfl⟩
        cases h
        rfl

section AnyOrder

variable {order : TickPhase → List Component} (horder : ∀ phase, (order phase).Perm children)

include horder

/-- The Process and Clear phases in any order. -/
theorem afterRead_perm (cpu : Cpu) {cs : Control → Bool} (hfree : OrderFree cs) (d : Datapath)
    (b : Buses) :
    (visit .process (order .process) tickProcess >>= fun _ => processCpu >>= fun _ =>
        visit .clear (order .clear) tickClear >>= fun _ => endTick)
        (Cpu.onBuses { cpu with currentPhase := .read, asserted := cs } (d, b)) =
      (processPhase >>= fun _ => clearPhase >>= fun _ => endTick)
        (Cpu.onBuses { cpu with currentPhase := .read, asserted := cs } (d, b)) := by
  let cpu' : Cpu := Cpu.onBuses { cpu with currentPhase := .process, asserted := cs } (d, b)
  have hprocess : (order .process).forM tickProcess cpu' = children.forM tickProcess cpu' :=
    @forM_tickProcess_perm cpu' _ rfl hfree (horder .process) (d, cpu.controller)
  have hchildren := @forM_tickProcess_children cpu' rfl (d, cpu.controller)
  have hcpu := @processCpu_eq (cpu'.onRegisters
    (Datapath.components.foldl (process cs) d,
      cpu.controller.next cs (Datapath.components.foldl (process cs) d))) rfl
  have hvisit : visit .process (order .process) tickProcess
      (Cpu.onBuses { cpu with currentPhase := .read, asserted := cs } (d, b)) = _ :=
    hprocess.trans hchildren
  have hphase : processPhase
      (Cpu.onBuses { cpu with currentPhase := .read, asserted := cs } (d, b)) = _ :=
    (enterPhase_bind .process _ _).trans ((bind_of_ok hchildren).trans hcpu)
  -- the buses and the controls are cleared in any order
  have hclear : ∀ s, visit .clear (order .clear) tickClear s = clearPhase s := by
    intro s
    unfold clearPhase
    rw [visit_run, enterPhase_bind]
    exact forM_tickClear_perm (horder .clear) _
  refine (bind_of_ok hvisit).trans ((bind_of_ok hcpu).trans (Eq.trans ?_ (bind_of_ok hphase).symm))
  show EStateM.bind _ _ _ = EStateM.bind _ _ _
  unfold EStateM.bind
  rw [hclear]

/-- The Control phase in any order. -/
theorem controlPhase_perm {cpu : Cpu} {controls : List Control} (hl : cpu.lookup = .ok controls)
    (hirq : Control.irqLine ∉ controls) :
    visit .control (order .control) tickControl cpu = controlPhase cpu := by
  unfold controlPhase
  rw [visit_run, enterPhase_bind,
    @forM_tickControl { cpu with currentPhase := .control } rfl controls hl,
    @forM_tickControl { cpu with currentPhase := .control } rfl controls hl,
    foldl_assertedAfter_perm hirq _ (horder .control)]

/-- The Write phase in any order. -/
theorem writePhase_perm {cpu : Cpu} (hidle : cpu.Idle) {cs : Control → Bool}
    (hb : RespectsBuses cs) (hfree : OrderFree cs) :
    visit .write (order .write) tickWrite
        { cpu with currentPhase := .control, asserted := cs } =
      writePhase { cpu with currentPhase := .control, asserted := cs } := by
  rw [writePhase_eq hidle hb]
  have h := @forM_tickWrite_perm { cpu with currentPhase := .write, asserted := cs } _ rfl hb
    hfree (horder .write) cpu.datapath
  have hstart : ({ cpu with currentPhase := .write, asserted := cs } : Cpu) =
      Cpu.onBuses { cpu with currentPhase := .write, asserted := cs }
        (cpu.datapath, Buses.empty) := by
    unfold Cpu.onBuses
    rw [hidle.dataBus, hidle.addressBus]
    rfl
  rw [visit_run, hstart]
  exact h

/-- The Read phase and those after it end alike in every order. -/
theorem ending_afterWrite (cpu : Cpu) {cs : Control → Bool} (hb : RespectsBuses cs)
    (hfree : OrderFree cs) :
    ending ((visit .read (order .read) tickRead >>= fun _ =>
        visit .process (order .process) tickProcess >>= fun _ => processCpu >>= fun _ =>
        visit .clear (order .clear) tickClear >>= fun _ => endTick)
        (Cpu.onBuses { cpu with currentPhase := .write, asserted := cs }
          (cpu.datapath.drive cs))) =
      ending ((readPhase >>= fun _ => processPhase >>= fun _ => clearPhase >>= fun _ => endTick)
        (Cpu.onBuses { cpu with currentPhase := .write, asserted := cs }
          (cpu.datapath.drive cs))) := by
  have hvisit : ∀ s : Cpu, visit .read (order .read) tickRead s =
      (order .read).forM tickRead { s with currentPhase := .read } := fun _ => rfl
  have hphase : ∀ s : Cpu, readPhase s =
      children.forM tickRead { s with currentPhase := .read } := by
    intro s
    unfold readPhase
    rw [enterPhase_bind]
  -- loads commute, and the store is the memory's own
  have hread : ∀ l : List Component, l.Perm children → _ := fun l hperm =>
    @forM_tickRead_perm { cpu with currentPhase := .read, asserted := cs } l rfl hfree hperm
      (cpu.datapath.drive cs).1 (cpu.datapath.drive cs).2 fun c bus hs =>
        @has_drive { cpu with currentPhase := .read, asserted := cs } hb cpu.datapath c bus hs
  have hordered := hread (order .read) (horder .read)
  have hchildren := hread children (List.Perm.refl children)
  simp only at hordered hchildren
  by_cases hr : cs .memoryRead = true
  · rw [if_pos hr] at hordered hchildren
    cases hw : (cpu.datapath.drive cs).1.memory.writeAt (cpu.datapath.drive cs).1.mar
        ((cpu.datapath.drive cs).2.data.getD 0) with
    | ok m =>
        rw [hw] at hordered hchildren
        rw [bind_of_ok ((hvisit _).trans hordered), bind_of_ok ((hphase _).trans hchildren),
          afterRead_perm horder cpu hfree]
    | error e =>
        -- the store fails, whatever has been loaded before it
        rw [hw] at hordered hchildren
        obtain ⟨t, ht, hm⟩ := hordered
        obtain ⟨t', ht', hm'⟩ := hchildren
        rw [bind_of_error ((hvisit _).trans ht), bind_of_error ((hphase _).trans ht')]
        show Except.error (e, t.datapath.memory) = Except.error (e, t'.datapath.memory)
        rw [hm, hm']
  · rw [if_neg hr] at hordered hchildren
    rw [bind_of_ok ((hvisit _).trans hordered), bind_of_ok ((hphase _).trans hchildren),
      afterRead_perm horder cpu hfree]

/-- A tick under an unordered step ends alike in every order. -/
theorem ending_tickIn {cpu : Cpu} (hidle : cpu.Idle) {controls : List Control}
    (hl : cpu.lookup = .ok controls) (hirq : Control.irqLine ∉ controls)
    (hb : RespectsBuses (cpu.assertedBy controls)) (hfree : OrderFree (cpu.assertedBy controls)) :
    ending (tickIn order cpu) = ending (tick cpu) := by
  by_cases hh : cpu.halted = true
  · -- a halted CPU visits no component
    rw [tick_of_halted hh]
    show ending ((if cpu.halted = true then _ else _ : SimM Unit) cpu) = _
    rw [if_pos hh]
    rfl
  · rw [Bool.not_eq_true] at hh
    -- each phase in turn, from the state that the one before it leaves
    have hcontrol := controlPhase_perm horder hl hirq
    rw [tickIn_run hh, tick_run hh, bind_of_ok (hcontrol.trans (controlPhase_eq hidle hl)),
      bind_of_ok (controlPhase_eq hidle hl)]
    generalize cpu.assertedBy controls = cs at hb hfree
    have hwrite := writePhase_perm horder hidle hb hfree
    rw [bind_of_ok (hwrite.trans (writePhase_eq hidle hb)), bind_of_ok (writePhase_eq hidle hb)]
    exact ending_afterWrite horder cpu hb hfree

end AnyOrder

/-! ## The default microcode -/

section Default

variable {ir : InstructionSet} {i : Instruction} {v : InstructionVariant} {s : Microcode.Step}

/-- A compiled step of the default microcode is one of the source and a control of the step
counter. -/
theorem exists_default_of_compiled
    (hir : Irata.compiler.optimizedIr Irata.instructionSet = .ok ir) (hi : i ∈ ir.instructions)
    (hv : v ∈ i.variants) (hs : s ∈ v.steps) :
    ∃ t : Microcode.Step, IsDefaultStep t ∧ ∃ control : Control, control.owner = .sc ∧
      s.controls = t.controls ++ [control] ∧ BusValid s := by
  have ha := Irata.accepts_instructionSet
  cases hir.symm.trans (Compiler.optimizedIr_eq ha)
  rcases List.mem_map.mp hi with ⟨j, hj, rfl⟩
  rcases List.mem_map.mp hv with ⟨w, hw, rfl⟩
  have hvalid := valid_of_mem_compiledSteps ha.preamble (ha.steps j hj w hw) hs
  rcases mem_sequenceSteps (owner_prefixSteps ha.preamble (ha.steps j hj w hw)) hs with
    ⟨t, ht, control, hcontrol, rfl⟩
  rcases controls_of_mem_prefixSteps ht with ⟨u, hu, heq⟩
  refine ⟨u, ?_, control, ?_, ?_, hvalid.1⟩
  · exact hu.imp id fun h => ⟨j, hj, w, hw, h⟩
  · rcases hcontrol with rfl | rfl <;> rfl
  · rw [← heq]
    rfl

/-- Under every step of the compiled default microcode a tick completes in the same state, or
throws the same error with the same memory, whatever the order in which each phase visits the
components. -/
theorem tickIn_default (hir : Irata.compiler.optimizedIr Irata.instructionSet = .ok ir)
    (hi : i ∈ ir.instructions) (hv : v ∈ i.variants) (hs : s ∈ v.steps) {cpu : Cpu}
    (hidle : cpu.Idle)
    (hl : cpu.lookup = .ok (InstructionMemory.decode (encodeControls s.controls)))
    {order : TickPhase → List Component} (horder : ∀ phase, (order phase).Perm children) :
    (∀ t, tickIn order cpu = .ok () t ↔ tick cpu = .ok () t) ∧
      ∀ e m, (∃ t, tickIn order cpu = .error e t ∧ t.datapath.memory = m) ↔
        ∃ t, tick cpu = .error e t ∧ t.datapath.memory = m := by
  rcases exists_default_of_compiled hir hi hv hs with ⟨t, ht, control, howner, hcontrols, hbus⟩
  have hmem := fun e => @InstructionMemory.mem_decode_encodeControls s.controls e
  have hirq : Control.irqLine ∉ InstructionMemory.decode (encodeControls s.controls) := by
    rw [hmem, hcontrols, List.mem_append, List.mem_singleton, not_or]
    refine ⟨irqLine_not_mem_of_isDefaultStep ht, ?_⟩
    rintro rfl
    cases howner
  have hb : RespectsBuses (cpu.assertedBy (InstructionMemory.decode (encodeControls s.controls))) :=
    respectsBuses_of_busValid hbus fun d bus hd => by rw [assertedBy_of_bus hd, hmem]
  have hfree : OrderFree
      (cpu.assertedBy (InstructionMemory.decode (encodeControls s.controls))) := by
    refine OrderFree.congr (fun e he => ?_) (orderFree_of_isDefaultStep ht)
    -- the other controls are those of the source step
    unfold ordersComponents at he
    rw [Bool.and_eq_true, decide_eq_true_eq, decide_eq_true_eq] at he
    have hne : e ≠ control := by
      rintro rfl
      exact he.2 howner
    rw [assertedBy_decode, assertedBy_of_ne _ _ he.1, hcontrols]
    unfold on
    simp [hne]
  have hending := ending_tickIn horder hidle hl hirq hb hfree
  constructor
  · intro t
    rw [← ending_eq_ok, ← ending_eq_ok, hending]
  · intro e m
    rw [← ending_eq_error, ← ending_eq_error, hending]

end Default

/-- The last step of a load from the zero page. -/
def loadStep : Microcode.Step :=
  ⟨1, [.memoryWrite, .readByte .a, .readByte .statusAnalyzer, .scReset]⟩

theorem mem_loadStep : ∃ i ∈ (compiled Irata.instructionSet).instructions, ∃ v ∈ i.variants,
    loadStep ∈ v.steps := by
  decide +kernel

/-- The load with every phase visited backwards. -/
theorem tickIn_default_loadStep :
    let cpu := (initial bareMemory ⟨[], [], ⟨0, 0⟩⟩).holding loadStep.controls
    (∀ t, tickIn (fun _ => children.reverse) cpu = .ok () t ↔ tick cpu = .ok () t) ∧
      ∀ e m, (∃ t, tickIn (fun _ => children.reverse) cpu = .error e t ∧ t.datapath.memory = m) ↔
        ∃ t, tick cpu = .error e t ∧ t.datapath.memory = m := by
  obtain ⟨i, hi, v, hv, hs⟩ := mem_loadStep
  have hidle : ((initial bareMemory ⟨[], [], ⟨0, 0⟩⟩).holding loadStep.controls).Idle :=
    ⟨fun _ _ => rfl, rfl, rfl⟩
  have hlookup := lookup_holding (initial bareMemory ⟨[], [], ⟨0, 0⟩⟩) loadStep.controls
  generalize (initial bareMemory ⟨[], [], ⟨0, 0⟩⟩).holding loadStep.controls = cpu at hidle hlookup
  exact tickIn_default (Compiler.optimizedIr_eq Irata.accepts_instructionSet) hi hv hs hidle hlookup
    fun _ => List.reverse_perm children

/-- The last step of an instruction that writes its result back to memory. -/
def storeStep : Microcode.Step :=
  ⟨1, [.writeByte .aluResult, .memoryRead, .readByte .statusAnalyzer, .scReset]⟩

theorem mem_storeStep : ∃ i ∈ (compiled Irata.instructionSet).instructions, ∃ v ∈ i.variants,
    storeStep ∈ v.steps := by
  decide +kernel

/-- A CPU in that step, with the address of a byte of the cartridge. -/
def storesToRom : Cpu :=
  let cpu := (initial bareMemory ⟨[], [], ⟨0, 0⟩⟩).holding storeStep.controls
  { cpu with datapath := { cpu.datapath with mar := 0x8000 } }

/-- The store into the cartridge throws.  Before that the analyzer has set Z if it is visited before
the memory. -/
theorem not_tickIn_default :
    ¬∀ {ir : InstructionSet} {i : Instruction} {v : InstructionVariant} {s : Microcode.Step},
      Irata.compiler.optimizedIr Irata.instructionSet = .ok ir → i ∈ ir.instructions →
      v ∈ i.variants → s ∈ v.steps → ∀ {cpu : Cpu}, cpu.Idle →
      cpu.lookup = .ok (InstructionMemory.decode (encodeControls s.controls)) →
      ∀ order : TickPhase → List Component, (∀ phase, (order phase).Perm children) →
      stateLeft (tickIn order cpu) = stateLeft (tick cpu) := by
  intro hclaim
  obtain ⟨i, hi, v, hv, hs⟩ := mem_storeStep
  have hidle : storesToRom.Idle := ⟨fun _ _ => rfl, rfl, rfl⟩
  have hlookup : storesToRom.lookup =
      .ok (InstructionMemory.decode (encodeControls storeStep.controls)) :=
    lookup_holding { initial bareMemory ⟨[], [], ⟨0, 0⟩⟩ with
      datapath := { (initial bareMemory ⟨[], [], ⟨0, 0⟩⟩).datapath with mar := 0x8000 } } _
  have hsame := hclaim (Compiler.optimizedIr_eq Irata.accepts_instructionSet) hi hv hs hidle hlookup
    (fun _ => children.reverse) fun _ => List.reverse_perm children
  have hbackwards : (stateLeft (tickIn (fun _ => children.reverse) storesToRom)).datapath.status =
      0 := by
    decide +kernel
  have hforwards : (stateLeft (tick storesToRom)).datapath.status = 2 := by decide +kernel
  rw [hsame, hforwards] at hbackwards
  revert hbackwards
  decide

end Cpu

end Irata2.Sim
