import Irata2.Sim.Cycle
import Irata2.Microcode.Validation

/-!
# One tick

From an idle state a tick looks up the controls of the current opcode, step and status, and acts
as `Datapath.step` on them.  The static bus check of the compiler is what makes its bus accesses
succeed, so the only errors are those of the lookup and of a store.
-/

namespace Irata2.Sim

open Hdl Library StateRun Microcode

/-! ## The components among the children -/

namespace Component

def childrenBefore : List Component := children.takeWhile (· ≠ .memory)

def childrenAfter : List Component := (children.dropWhile (· ≠ .memory)).tail

theorem children_eq : children = childrenBefore ++ .memory :: childrenAfter := by
  decide

theorem filter_isActive_before : childrenBefore.filter isActive = front := by
  decide

theorem filter_isActive_after : childrenAfter.filter isActive = back := by
  decide

theorem filter_isActive_children : children.filter isActive = Datapath.components := by
  decide

theorem ne_memory_of_mem_before {c : Component} (h : c ∈ childrenBefore) : c ≠ .memory := by
  have hall : ∀ c ∈ childrenBefore, c ≠ .memory := by decide
  exact hall c h

theorem ne_memory_of_mem_after {c : Component} (h : c ∈ childrenAfter) : c ≠ .memory := by
  have hall : ∀ c ∈ childrenAfter, c ≠ .memory := by decide
  exact hall c h

theorem mem_children_of_writeControl {c : Component} {w : Control} (h : c.writeControl = some w) :
    c ∈ children := by
  cases c with
  | byteRegister r => cases r <;> decide
  | wordRegister r => cases r <;> decide
  | memory => decide
  | _ => cases h

theorem control_mem_children (c : Control) : .control c ∈ children := by
  have h := mem_cpuControls c
  rw [← controlOrder_eq] at h
  rcases List.mem_filterMap.mp h with ⟨d, hd, hc⟩
  cases d with
  | control e =>
      cases hc
      exact hd
  | _ => cases hc

/-! ## The bus protocol -/

/-- At most one component drives each bus, and one does when a component loads from it. -/
structure RespectsBuses (cs : Control → Bool) : Prop where
  single : ∀ bus, children.countP (drives cs bus) ≤ 1
  written : ∀ bus, ∀ c : Component, c.senses cs bus = true →
    (children.any fun c => c.drives cs bus) = true

theorem countP_any {α β : Type*} (f : α → Option β) (p : β → Bool) (l : List α) :
    l.countP (fun a => (f a).any p) = ((l.filterMap f).filter p).length := by
  induction l with
  | nil => rfl
  | cons a l ih =>
      cases hf : f a with
      | none =>
          rw [List.countP_cons_of_neg (by rw [hf, Option.any_none]; decide), ih,
            List.filterMap_cons_none hf]
      | some b =>
          rw [List.filterMap_cons_some hf]
          cases hp : p b with
          | true =>
              rw [List.countP_cons_of_pos (by rw [hf]; exact hp), ih, List.filter_cons_of_pos hp]
              rfl
          | false =>
              rw [List.countP_cons_of_neg (by rw [hf, Option.any_some, hp]; decide), ih,
                List.filter_cons_of_neg (by rw [hp]; decide)]

theorem writeControls_nodup : (children.filterMap writeControl).Nodup := by
  decide

theorem phase_of_writeControl {c : Component} {w : Control} (h : c.writeControl = some w) :
    w.phase = .write := by
  cases c <;> cases h <;> rfl

theorem phase_of_readControl {c : Component} {r : Control} (h : c.readControl = some r) :
    r.phase = .read := by
  cases c <;> cases h <;> rfl

/-- Every control that writes a bus belongs to a component. -/
theorem exists_writeControl {w : Control} {bus : BusType} (hbus : w.bus = some bus)
    (hphase : w.phase = .write) : ∃ c, writeControl c = some w := by
  cases w with
  | writeByte r => exact ⟨.byteRegister r, rfl⟩
  | writeWord r => exact ⟨.wordRegister r, rfl⟩
  | memoryWrite => exact ⟨.memory, rfl⟩
  | readByte r => cases hphase
  | readWord r => cases hphase
  | memoryRead => cases hphase
  | _ => cases hbus

/-- The static check of a step covers every component of the simulator. -/
theorem respectsBuses_of_busValid {s : Step} {cs : Control → Bool} (hs : BusValid s)
    (hcs : ∀ c bus, c.bus = some bus → (cs c = true ↔ c ∈ s.controls)) : RespectsBuses cs := by
  constructor
  · intro bus
    unfold drives
    -- two components that drive a bus would be two writers of it in the step
    rw [countP_any]
    refine le_trans ?_ (hs bus).1
    refine List.Subperm.length_le (List.Nodup.subperm (writeControls_nodup.filter _) ?_)
    intro w hw
    rw [List.mem_filter, Bool.and_eq_true, beq_iff_eq] at hw
    rcases List.mem_filterMap.mp hw.1 with ⟨c, -, hc⟩
    unfold busWriters
    rw [List.mem_filter]
    refine ⟨(hcs w bus hw.2.2).mp hw.2.1, ?_⟩
    rw [hw.2.2, phase_of_writeControl hc]
    cases bus <;> rfl
  · intro bus c hsense
    have hreader : busReaders bus s ≠ [] := by
      unfold senses at hsense
      cases hr : c.readControl with
      | none =>
          rw [hr] at hsense
          cases hsense
      | some r =>
          rw [hr, Option.any_some, Bool.and_eq_true, beq_iff_eq] at hsense
          apply List.ne_nil_of_mem (a := r)
          unfold busReaders
          rw [List.mem_filter]
          refine ⟨(hcs r bus hsense.2).mp hsense.1, ?_⟩
          rw [hsense.2, phase_of_readControl hr]
          cases bus <;> rfl
    -- a bus with a reader has a writer
    rcases List.exists_mem_of_ne_nil _ ((hs bus).2 hreader) with ⟨w, hw⟩
    unfold busWriters at hw
    rw [List.mem_filter, Bool.and_eq_true, decide_eq_true_eq, decide_eq_true_eq] at hw
    rcases exists_writeControl hw.2.1 hw.2.2 with ⟨d, hd⟩
    rw [List.any_eq_true]
    refine ⟨d, mem_children_of_writeControl hd, ?_⟩
    unfold drives
    rw [hd, Option.any_some, (hcs w bus hw.2.1).mpr hw.1, hw.2.1]
    cases bus <;> rfl

/-! ## The controller's registers -/

/-- The components that leave the program counter and the status register alone. -/
def keepsPcStatus : Component → Bool
  | control _ | memory | wordRegister .mar | byteRegister .marLow | byteRegister .marHigh
  | byteRegister .marOffset => true
  | _ => false

theorem process_byteRegister (cs : Control → Bool) (d : Datapath) {r : ByteRegister}
    (h : r ≠ .sp) :
    (byteRegister r).process cs d = if cs r.reset = true then d.setByte r 0 else d := by
  cases r <;> first | rfl | exact absurd rfl h

theorem process_ir (cs : Control → Bool) (d : Datapath) :
    ((byteRegister .ir).process cs d).pc = d.pc ∧
      ((byteRegister .ir).process cs d).status = d.status := by
  rw [process_byteRegister cs d (by decide)]
  split <;> exact ⟨rfl, rfl⟩

theorem process_keepsPcStatus (cs : Control → Bool) (d : Datapath) (c : Component)
    (h : c.keepsPcStatus = true) :
    (c.process cs d).pc = d.pc ∧ (c.process cs d).status = d.status := by
  cases c with
  | byteRegister r =>
      cases r with
      | marLow | marHigh | marOffset =>
          rw [process_byteRegister cs d (by decide)]
          split <;> exact ⟨rfl, rfl⟩
      | _ => cases h
  | wordRegister r =>
      cases r with
      | mar =>
          simp only [process]
          split <;> split <;> split <;> split <;> exact ⟨rfl, rfl⟩
      | _ => cases h
  | control c => exact ⟨rfl, rfl⟩
  | memory => exact ⟨rfl, rfl⟩
  | _ => cases h

theorem processController_keepsPcStatus (cs : Control → Bool) (d : Datapath) (k : Controller)
    (c : Component) (h : c.keepsPcStatus = true) : c.processController cs d k = k := by
  cases c with
  | byteRegister r => cases r <;> first | rfl | cases h
  | _ => first | rfl | cases h

/-- The components that leave the controller's registers alone. -/
def keepsController : Component → Bool
  | controller | byteRegister .ir | sc | ipc => false
  | _ => true

theorem processController_keepsController (cs : Control → Bool) (d : Datapath) (k : Controller)
    (c : Component) (h : c.keepsController = true) : c.processController cs d k = k := by
  cases c with
  | byteRegister r => cases r <;> first | rfl | cases h
  | _ => first | rfl | cases h

theorem next_congr (cs : Control → Bool) (k : Controller) {d d' : Datapath} (hpc : d.pc = d'.pc)
    (hstatus : d.status = d'.status) : k.next cs d = k.next cs d' := by
  unfold Controller.next
  rw [hpc, hstatus]

/-- One iteration of the Process phase. -/
def processBoth (cs : Control → Bool) (s : Datapath × Controller) (c : Component) :
    Datapath × Controller :=
  (c.process cs s.1, c.processController cs s.1 s.2)

theorem foldl_processBoth_fst (cs : Control → Bool) (l : List Component)
    (s : Datapath × Controller) :
    (l.foldl (processBoth cs) s).1 = l.foldl (process cs) s.1 := by
  induction l generalizing s with
  | nil => rfl
  | cons c l ih => exact ih _

theorem foldl_processBoth_keepsController (cs : Control → Bool) (l : List Component)
    (hl : l.all keepsController = true) (s : Datapath × Controller) :
    (l.foldl (processBoth cs) s).2 = s.2 := by
  induction l generalizing s with
  | nil => rfl
  | cons c l ih =>
      rw [List.all_cons, Bool.and_eq_true] at hl
      rw [List.foldl_cons, ih hl.2]
      exact processController_keepsController cs s.1 s.2 c hl.1

theorem foldl_processBoth_keepsPcStatus (cs : Control → Bool) (l : List Component)
    (hl : l.all keepsPcStatus = true) (s : Datapath × Controller) :
    (l.foldl (processBoth cs) s).1.pc = s.1.pc ∧
      (l.foldl (processBoth cs) s).1.status = s.1.status ∧
      (l.foldl (processBoth cs) s).2 = s.2 := by
  induction l generalizing s with
  | nil => exact ⟨rfl, rfl, rfl⟩
  | cons c l ih =>
      rw [List.all_cons, Bool.and_eq_true] at hl
      have hc := process_keepsPcStatus cs s.1 c hl.1
      have hk := processController_keepsPcStatus cs s.1 s.2 c hl.1
      have h := ih hl.2 (processBoth cs s c)
      exact ⟨h.1.trans hc.1, h.2.1.trans hc.2, h.2.2.trans hk⟩

/-- The children before the controller, and those after its own registers. -/
def childrenBeforeController : List Component := children.takeWhile (· ≠ .controller)

def childrenAfterController : List Component := .memory :: .control .memoryWrite ::
  .control .memoryRead :: childrenAfter.drop 2

/-- The controller with its registers and their controls. -/
def controllerChildren : List Component :=
  [.controller] ++ byteChildren .ir ++ [.control .instructionStart] ++
    [.sc, .control .scReset, .control .scIncrement, .control .scDecrement] ++
    [.ipc, .control .ipcLatch]

theorem children_eq_controller :
    children = childrenBeforeController ++ (controllerChildren ++ childrenAfterController) := by
  decide

theorem processBoth_controllerChildren (cs : Control → Bool) (s : Datapath × Controller) :
    controllerChildren.foldl (processBoth cs) s =
      ((byteRegister .ir).process cs s.1, s.2.next cs s.1) := by
  rcases s with ⟨d, k⟩
  have hpc := (process_ir cs d).1
  -- only the instruction register acts on the datapath; the other three run in this order
  show ((byteRegister .ir).process cs d,
    ipc.processController cs ((byteRegister .ir).process cs d)
      (sc.processController cs ((byteRegister .ir).process cs d)
        ((byteRegister .ir).processController cs d (controller.processController cs d k)))) = _
  refine Prod.ext rfl ?_
  generalize (byteRegister .ir).process cs d = d' at hpc
  simp only [processController, Controller.next, hpc]
  cases cs ByteRegister.ir.reset <;> cases cs .instructionStart <;> cases cs .ipcLatch <;>
    cases cs .scReset <;> cases cs .scIncrement <;> cases cs .scDecrement <;> rfl

/-- The Process phase updates the controller's registers from the datapath it leaves behind. -/
theorem foldl_processBoth_children (cs : Control → Bool) (s : Datapath × Controller) :
    children.foldl (processBoth cs) s =
      (Datapath.components.foldl (process cs) s.1,
        s.2.next cs (Datapath.components.foldl (process cs) s.1)) := by
  have hfst : (children.foldl (processBoth cs) s).1 =
      Datapath.components.foldl (process cs) s.1 := by
    rw [foldl_processBoth_fst, ← filter_isActive_children]
    exact foldl_eq_foldl_filter (fun d c h => process_of_not_isActive cs d c h) _ _
  refine Prod.ext hfst ?_
  show _ = s.2.next cs (Datapath.components.foldl (process cs) s.1)
  rw [← hfst, children_eq_controller, List.foldl_append, List.foldl_append]
  generalize hs : childrenBeforeController.foldl (processBoth cs) s = t
  have ht : t.2 = s.2 := by
    rw [← hs]
    exact foldl_processBoth_keepsController cs _ (by decide) s
  rw [processBoth_controllerChildren]
  have h := foldl_processBoth_keepsPcStatus cs childrenAfterController (by decide)
    ((byteRegister .ir).process cs t.1, t.2.next cs t.1)
  have hir := process_ir cs t.1
  rw [h.2.2, ← ht]
  exact next_congr cs t.2 (hir.1.symm.trans h.1.symm) (hir.2.symm.trans h.2.1.symm)

/-! ## The phases of the children -/

section Phases

variable {cpu : Cpu}

theorem forM_tickWrite_children (hp : cpu.currentPhase = .write)
    (hb : RespectsBuses cpu.asserted) (d : Datapath) :
    children.forM tickWrite (cpu.onBuses (d, Buses.empty)) =
      .ok () (cpu.onBuses (d.drive cpu.asserted)) := by
  have hcount : ∀ bus, (Buses.empty.has bus).toNat +
      children.countP (drives cpu.asserted bus) ≤ 1 := by
    intro bus
    have h := hb.single bus
    cases bus <;> exact (Nat.zero_add _).trans_le h
  rw [forM_tickWrite hp _ _ hcount]
  unfold Datapath.drive
  rw [← filter_isActive_children]
  rw [foldl_eq_foldl_filter fun w c h => write_of_not_isActive cpu.asserted w c h]

theorem has_drive (hb : RespectsBuses cpu.asserted) (d : Datapath) (c : Component)
    (bus : BusType) (h : c.senses cpu.asserted bus = true) :
    (d.drive cpu.asserted).2.has bus = true := by
  unfold Datapath.drive
  rw [← filter_isActive_children, ← foldl_eq_foldl_filter fun w c h =>
    write_of_not_isActive cpu.asserted w c h, has_foldl_write, hb.written bus c h, Bool.or_true]

theorem forM_tickRead_children (hp : cpu.currentPhase = .read) (d : Datapath) (b : Buses)
    (hb : ∀ c : Component, ∀ bus, c.senses cpu.asserted bus = true → b.has bus = true) :
    children.forM tickRead (cpu.onBuses (d, b)) =
      let d := front.foldl (read cpu.asserted b) d
      if cpu.asserted .memoryRead = true then
        match d.memory.writeAt d.mar (b.data.getD 0) with
        | .ok m =>
            .ok () (cpu.onBuses (back.foldl (read cpu.asserted b) { d with memory := m }, b))
        | .error e => .error e (cpu.onBuses (d, b))
      else .ok () (cpu.onBuses (back.foldl (read cpu.asserted b) d, b)) := by
  have hfront : childrenBefore.forM tickRead (cpu.onBuses (d, b)) =
      .ok () (cpu.onBuses (front.foldl (read cpu.asserted b) d, b)) := by
    rw [forM_tickRead hp d b _ (fun c hc => ne_memory_of_mem_before hc) fun c _ => hb c]
    rw [← filter_isActive_before, ← foldl_eq_foldl_filter fun d c h =>
      read_of_not_isActive cpu.asserted b d c h]
  have hback : ∀ d, childrenAfter.forM tickRead (cpu.onBuses (d, b)) =
      .ok () (cpu.onBuses (back.foldl (read cpu.asserted b) d, b)) := by
    intro d
    rw [forM_tickRead hp d b _ (fun c hc => ne_memory_of_mem_after hc) fun c _ => hb c]
    rw [← filter_isActive_after, ← foldl_eq_foldl_filter fun d c h =>
      read_of_not_isActive cpu.asserted b d c h]
  rw [children_eq, forM_append_of_ok hfront]
  generalize front.foldl (read cpu.asserted b) d = d₁
  have hmem := tickRead_memory hp d₁ b (hb .memory)
  show _ = if cpu.asserted .memoryRead = true then _ else _
  by_cases hr : cpu.asserted .memoryRead = true
  · rw [if_pos hr] at hmem ⊢
    cases hw : d₁.memory.writeAt d₁.mar (b.data.getD 0) with
    | ok m =>
        rw [hw] at hmem
        rw [forM_cons_of_ok hmem]
        exact hback _
    | error e =>
        rw [hw] at hmem
        exact forM_cons_of_error hmem
  · rw [if_neg hr] at hmem ⊢
    rw [forM_cons_of_ok hmem]
    exact hback _

theorem forM_tickProcess_children (hp : cpu.currentPhase = .process)
    (s : Datapath × Controller) :
    children.forM tickProcess (cpu.onRegisters s) =
      .ok () (cpu.onRegisters (Datapath.components.foldl (process cpu.asserted) s.1,
        s.2.next cpu.asserted (Datapath.components.foldl (process cpu.asserted) s.1))) := by
  rw [← foldl_processBoth_children]
  exact forM_of_foldl cpu.onRegisters (P := fun _ _ => True)
    (fun c _ s _ => ⟨tickProcess_eq hp s c, trivial⟩) children s trivial

theorem tickClear_control (e : Control) (cpu : Cpu) :
    tickClear (control e) cpu =
      .ok () { cpu with
        asserted := fun c =>
          if c.autoReset = true ∧ c = e then false else cpu.asserted c } := by
  rw [tickClear]
  by_cases he : e.autoReset = true
  · rw [if_pos he]
    show EStateM.Result.ok () { cpu with asserted := Function.update cpu.asserted e false } = _
    congr 2
    funext c
    by_cases hc : c = e
    · rw [hc, Function.update_self, if_pos ⟨he, rfl⟩]
    · rw [Function.update_of_ne hc, if_neg fun h => hc h.2]
  · rw [if_neg he]
    show EStateM.Result.ok () cpu = _
    congr 1
    have hno : ∀ c, ¬(c.autoReset = true ∧ c = e) := by
      rintro c ⟨hc, rfl⟩
      exact he hc
    simp only [hno, if_false]

/-- The Clear phase of a list of components. -/
theorem forM_tickClear (l : List Component) (cpu : Cpu) :
    l.forM tickClear cpu =
      .ok () { cpu with
        asserted := fun c =>
          if c.autoReset = true ∧ .control c ∈ l then false else cpu.asserted c
        dataBus := if .dataBus ∈ l then Bus.clear else cpu.dataBus
        addressBus := if .addressBus ∈ l then Bus.clear else cpu.addressBus } := by
  induction l generalizing cpu with
  | nil =>
      simp only [List.not_mem_nil, and_false, if_false]
      rfl
  | cons c l ih =>
      cases c with
      | control e =>
          rw [forM_cons_of_ok (tickClear_control e cpu), ih]
          congr 2
          · funext c
            by_cases hc : c = e
            · subst hc
              by_cases ha : c.autoReset = true <;> simp [ha]
            · simp [hc]
          · simp
          · simp
      | dataBus =>
          have h : tickClear dataBus cpu = .ok () { cpu with dataBus := Bus.clear } := rfl
          rw [forM_cons_of_ok h, ih]
          simp
      | addressBus =>
          have h : tickClear addressBus cpu = .ok () { cpu with addressBus := Bus.clear } := rfl
          rw [forM_cons_of_ok h, ih]
          simp
      | _ =>
          rw [forM_cons_of_ok (show tickClear _ cpu = .ok () cpu from rfl), ih]
          simp

theorem forM_tickClear_children (cpu : Cpu) :
    children.forM tickClear cpu =
      .ok () { cpu with
        asserted := fun c => if c.autoReset = true then false else cpu.asserted c
        dataBus := Bus.clear
        addressBus := Bus.clear } := by
  rw [forM_tickClear, if_pos (by decide), if_pos (by decide)]
  simp only [control_mem_children, and_true]

/-! ## The Control phase -/

open SimM

theorem forM_tickControl_of_inert (l : List Component)
    (hl : ∀ c ∈ l, c ≠ .controller ∧ c ≠ .memory) : l.forM tickControl cpu = .ok () cpu := by
  induction l with
  | nil => rfl
  | cons c l ih =>
      have hc := hl c List.mem_cons_self
      have h : tickControl c cpu = .ok () cpu := by
        cases c with
        | controller => exact absurd rfl hc.1
        | memory => exact absurd rfl hc.2
        | _ => rfl
      rw [forM_cons_of_ok h]
      exact ih fun d hd => hl d (List.mem_cons_of_mem _ hd)

theorem forM_tickControl_split {cpu₁ cpu₂ : Cpu} {l₁ l₂ l₃ : List Component}
    (h₁ : ∀ c ∈ l₁, c ≠ .controller ∧ c ≠ .memory) (h₂ : ∀ c ∈ l₂, c ≠ .controller ∧ c ≠ .memory)
    (h₃ : ∀ c ∈ l₃, c ≠ .controller ∧ c ≠ .memory)
    (hc : tickControl .controller cpu = .ok () cpu₁) (hm : tickControl .memory cpu₁ = .ok () cpu₂) :
    (l₁ ++ .controller :: (l₂ ++ .memory :: l₃)).forM tickControl cpu = .ok () cpu₂ := by
  rw [forM_append_of_ok (forM_tickControl_of_inert l₁ h₁), forM_cons_of_ok hc,
    forM_append_of_ok (forM_tickControl_of_inert l₂ h₂), forM_cons_of_ok hm,
    forM_tickControl_of_inert l₃ h₃]

theorem forM_tickControl_split_error {e : SimError} {l₁ l₂ : List Component}
    (h₁ : ∀ c ∈ l₁, c ≠ .controller ∧ c ≠ .memory)
    (hc : tickControl .controller cpu = .error e cpu) :
    (l₁ ++ .controller :: l₂).forM tickControl cpu = .error e cpu := by
  rw [forM_append_of_ok (forM_tickControl_of_inert l₁ h₁)]
  exact forM_cons_of_error hc

/-- The children between the controller and the memory. -/
def childrenBetween : List Component := controllerChildren.tail

theorem inert_before : ∀ c ∈ childrenBeforeController, c ≠ .controller ∧ c ≠ .memory := by
  decide

theorem inert_between : ∀ c ∈ childrenBetween, c ≠ .controller ∧ c ≠ .memory := by
  decide

theorem inert_after : ∀ c ∈ childrenAfter, c ≠ .controller ∧ c ≠ .memory := by
  decide

theorem children_eq_split :
    children = childrenBeforeController ++
      .controller :: (childrenBetween ++ .memory :: childrenAfter) := by
  decide

theorem forM_assertControl (hp : cpu.currentPhase = .control) (controls : List Control) :
    controls.forM assertControl cpu =
      .ok () { cpu with asserted := fun c => decide (c ∈ controls) || cpu.asserted c } := by
  induction controls generalizing cpu with
  | nil =>
      simp only [List.not_mem_nil, decide_false, Bool.false_or]
      rfl
  | cons e controls ih =>
      rw [forM_cons_of_ok (assertControl_eq hp e), ih (by exact hp)]
      congr 2
      funext c
      by_cases hc : c = e
      · simp [hc]
      · simp [hc]

/-- Each level overwrites the one before it. -/
theorem forM_setControl (hp : cpu.currentPhase = .control) (e : Control) (levels : List Bool) :
    levels.forM (setControl e) cpu =
      .ok () { cpu with
        asserted := Function.update cpu.asserted e
          (levels.getLast?.getD (cpu.asserted e)) } := by
  induction levels generalizing cpu with
  | nil =>
      show EStateM.Result.ok () cpu = _
      rw [List.getLast?_nil, Option.getD_none, Function.update_eq_self]
  | cons v levels ih =>
      rw [forM_cons_of_ok (setControl_eq hp e v), ih (by exact hp)]
      simp only [Function.update_idem, Function.update_self]
      rw [List.getLast?_cons, Option.getD_some]

theorem forM_tickControl_children (cpu : Cpu) :
    children.forM tickControl cpu =
      (childrenBeforeController ++
        .controller :: (childrenBetween ++ .memory :: childrenAfter)).forM tickControl cpu :=
  congrArg (fun l => l.forM tickControl cpu) children_eq_split

end Phases

end Component

namespace Cpu

open Component SimM

/-- The status bits that the microcode refers to. -/
def encodedStatus (cpu : Cpu) : Byte :=
  StatusEncoder.encode cpu.controller.instructionMemory.statusBits cpu.datapath.status

/-- The lookup of the Control phase. -/
def lookup (cpu : Cpu) : Except SimError (List Control) :=
  cpu.controller.instructionMemory.lookup cpu.irValue cpu.controller.sc cpu.encodedStatus

/-- The interrupt line after the Control phase: the last device decides, if there is one. -/
def irqLevel (cpu : Cpu) (controls : List Control) : Bool :=
  cpu.datapath.memory.irqLevels.getLast?.getD
    (decide (Control.irqLine ∈ controls) || cpu.asserted .irqLine)

/-- The controls that are asserted after the Control phase of an idle CPU. -/
def assertedBy (cpu : Cpu) (controls : List Control) (c : Control) : Bool :=
  if c = .irqLine then cpu.irqLevel controls else decide (c ∈ controls)

/-- Between ticks no control but the latched line is asserted, and the buses are empty. -/
structure Idle (cpu : Cpu) : Prop where
  asserted : ∀ c, c.autoReset = true → cpu.asserted c = false
  dataBus : cpu.dataBus = Bus.clear
  addressBus : cpu.addressBus = Bus.clear

/-- The state after a tick under `cs` that leaves the datapath `d`. -/
def afterTick (cpu : Cpu) (cs : Control → Bool) (d : Datapath) : Cpu where
  datapath := d
  controller := cpu.controller.next cs d
  asserted := fun c => if c.autoReset = true then false else cs c
  dataBus := Bus.clear
  addressBus := Bus.clear
  currentPhase := .none
  halted := cpu.halted || cs .halt || cs .crash
  crashed := cpu.crashed || cs .crash
  cycleCount := cpu.cycleCount + 1
  ipcValid := cpu.ipcValid || cs .instructionStart
  trace :=
    if cs .instructionStart then
      cpu.trace.record
        (traceEntry { cpu with datapath := d, controller := cpu.controller.next cs d })
    else cpu.trace

theorem autoReset_of_ne_irqLine {c : Control} (h : c ≠ .irqLine) : c.autoReset = true := by
  cases c <;> first | rfl | exact absurd rfl h

theorem enterPhase_bind {α : Type} (phase : TickPhase) (x : SimM α) (cpu : Cpu) :
    (enterPhase phase >>= fun _ => x) cpu = x { cpu with currentPhase := phase } :=
  rfl

theorem controlPhase_run (cpu : Cpu) :
    controlPhase cpu =
      (childrenBeforeController ++
        .controller :: (childrenBetween ++ .memory :: childrenAfter)).forM tickControl
        { cpu with currentPhase := .control } := by
  unfold controlPhase
  rw [enterPhase_bind, forM_tickControl_children]

/-- The Control phase asserts the controls it looks up, on top of the latched line. -/
theorem controlPhase_eq {cpu : Cpu} (hidle : cpu.Idle) {controls : List Control}
    (hl : cpu.lookup = .ok controls) :
    controlPhase cpu =
      .ok () { cpu with currentPhase := .control, asserted := cpu.assertedBy controls } := by
  have hcontroller : tickControl .controller { cpu with currentPhase := .control } =
      .ok () { cpu with
        currentPhase := .control
        asserted := fun c => decide (c ∈ controls) || cpu.asserted c } :=
    (bind_of_ok (ofExcept_ok hl { cpu with currentPhase := .control })).trans
      (@forM_assertControl { cpu with currentPhase := .control } rfl controls)
  have hmemory : tickControl .memory { cpu with
        currentPhase := .control
        asserted := fun c => decide (c ∈ controls) || cpu.asserted c } =
      .ok () { cpu with
        currentPhase := .control
        asserted := Function.update (fun c => decide (c ∈ controls) || cpu.asserted c) .irqLine
          (cpu.irqLevel controls) } :=
    @forM_setControl { cpu with
      currentPhase := .control
      asserted := fun c => decide (c ∈ controls) || cpu.asserted c } rfl .irqLine
        cpu.datapath.memory.irqLevels
  have hrun := forM_tickControl_split inert_before inert_between inert_after hcontroller hmemory
  have hasserted : Function.update (fun c => decide (c ∈ controls) || cpu.asserted c) .irqLine
      (cpu.irqLevel controls) = cpu.assertedBy controls := by
    funext c
    unfold assertedBy
    by_cases hc : c = .irqLine
    · rw [if_pos hc, hc, Function.update_self]
    · rw [if_neg hc, Function.update_of_ne hc, hidle.asserted c (autoReset_of_ne_irqLine hc),
        Bool.or_false]
  rw [controlPhase_run, hrun, hasserted]

theorem controlPhase_error {cpu : Cpu} {e : SimError} (hl : cpu.lookup = .error e) :
    controlPhase cpu = .error e { cpu with currentPhase := .control } := by
  have hget : (get : SimM Cpu) { cpu with currentPhase := .control } =
      .ok { cpu with currentPhase := .control } { cpu with currentPhase := .control } := rfl
  have hlookup : (MonadExcept.ofExcept cpu.lookup : SimM (List Control))
      { cpu with currentPhase := .control } = .error e { cpu with currentPhase := .control } :=
    ofExcept_error hl _
  have hcontroller : tickControl .controller { cpu with currentPhase := .control } =
      .error e { cpu with currentPhase := .control } :=
    (bind_of_ok hget).trans (bind_of_error hlookup)
  rw [controlPhase_run]
  exact forM_tickControl_split_error inert_before hcontroller

theorem processCpu_eq {cpu : Cpu} (hp : cpu.currentPhase = .process) :
    processCpu cpu =
      .ok () { cpu with
        halted := cpu.halted || cpu.asserted .halt || cpu.asserted .crash
        crashed := cpu.crashed || cpu.asserted .crash
        ipcValid := cpu.ipcValid || cpu.asserted .instructionStart
        trace :=
          if cpu.asserted .instructionStart then cpu.trace.record cpu.traceEntry
          else cpu.trace } := by
  have hwhen : ∀ (cpu' : Cpu) (c : Control) (f : Cpu → Cpu), cpu'.currentPhase = .process →
      c.phase = .process →
      whenAsserted c (modify f) cpu' =
        .ok () (if cpu'.asserted c = true then f cpu' else cpu') := by
    intro cpu' c f hp' hc
    by_cases h : cpu'.asserted c = true
    · rw [if_pos h, whenAsserted_of_true (hp'.trans hc.symm) h]
      rfl
    · rw [if_neg h, whenAsserted_of_false (hp'.trans hc.symm) h]
  refine (bind_of_ok (hwhen cpu .halt _ hp rfl)).trans ?_
  refine (bind_of_ok (hwhen _ .crash _ ?_ rfl)).trans ((hwhen _ .instructionStart _ ?_ rfl).trans ?_)
  · split <;> exact hp
  · split <;> split <;> exact hp
  · rcases cpu with ⟨d, k, asserted, db, ab, phase, halted, crashed, cycles, valid, trace⟩
    cases hh : asserted .halt <;> cases hc : asserted .crash <;>
      cases hi : asserted .instructionStart <;>
      simp [hh, hc, hi] <;> rfl

theorem writePhase_eq {cpu : Cpu} (hidle : cpu.Idle) {cs : Control → Bool}
    (hb : RespectsBuses cs) :
    writePhase { cpu with currentPhase := .control, asserted := cs } =
      .ok () (Cpu.onBuses { cpu with currentPhase := .write, asserted := cs }
        (cpu.datapath.drive cs)) := by
  have h := @forM_tickWrite_children { cpu with currentPhase := .write, asserted := cs } rfl hb
    cpu.datapath
  have hstart : ({ cpu with currentPhase := .write, asserted := cs } : Cpu) =
      Cpu.onBuses { cpu with currentPhase := .write, asserted := cs }
        (cpu.datapath, Buses.empty) := by
    unfold Cpu.onBuses
    rw [hidle.dataBus, hidle.addressBus]
    rfl
  rw [← hstart] at h
  unfold writePhase
  rw [enterPhase_bind]
  exact h

theorem readPhase_eq (cpu : Cpu) {cs : Control → Bool} (hb : RespectsBuses cs) :
    readPhase (Cpu.onBuses { cpu with currentPhase := .write, asserted := cs }
        (cpu.datapath.drive cs)) =
      let b := (cpu.datapath.drive cs).2
      let d := front.foldl (Component.read cs b) (cpu.datapath.drive cs).1
      let cpu' : Cpu := { cpu with currentPhase := .read, asserted := cs }
      if cs .memoryRead = true then
        match d.memory.writeAt d.mar (b.data.getD 0) with
        | .ok m =>
            .ok () (cpu'.onBuses (back.foldl (Component.read cs b) { d with memory := m }, b))
        | .error e => .error e (cpu'.onBuses (d, b))
      else .ok () (cpu'.onBuses (back.foldl (Component.read cs b) d, b)) := by
  unfold readPhase
  rw [enterPhase_bind]
  exact @forM_tickRead_children { cpu with currentPhase := .read, asserted := cs } rfl
    (cpu.datapath.drive cs).1 (cpu.datapath.drive cs).2 fun c bus hs =>
      @has_drive { cpu with currentPhase := .read, asserted := cs } hb cpu.datapath c bus hs

/-- The Process and Clear phases. -/
theorem afterRead_eq (cpu : Cpu) (cs : Control → Bool) (d : Datapath) (b : Buses) :
    (processPhase >>= fun _ => clearPhase >>= fun _ => endTick)
        (Cpu.onBuses { cpu with currentPhase := .read, asserted := cs } (d, b)) =
      .ok () (cpu.afterTick cs (Datapath.components.foldl (process cs) d)) := by
  let cpu' : Cpu := Cpu.onBuses { cpu with currentPhase := .process, asserted := cs } (d, b)
  have hchildren := @forM_tickProcess_children cpu' rfl (d, cpu.controller)
  have hprocess : processPhase
      (Cpu.onBuses { cpu with currentPhase := .read, asserted := cs } (d, b)) = _ :=
    (enterPhase_bind .process _ _).trans
      ((bind_of_ok hchildren).trans (processCpu_eq rfl))
  rw [bind_of_ok hprocess]
  have hclear : ∀ s : Cpu, clearPhase s = .ok () { s with
      currentPhase := .clear
      asserted := fun c => if c.autoReset = true then false else s.asserted c
      dataBus := Bus.clear
      addressBus := Bus.clear } := fun s =>
    (enterPhase_bind .clear _ s).trans (forM_tickClear_children _)
  rw [bind_of_ok (hclear _)]
  rfl

/-- The state in the Read phase when it reaches the memory. -/
def atStore (cpu : Cpu) (cs : Control → Bool) : Cpu :=
  Cpu.onBuses { cpu with currentPhase := .read, asserted := cs } (cpu.datapath.untilStore cs)

/-- The phases after the Control phase, when the asserted controls respect the buses. -/
theorem afterControl_eq {cpu : Cpu} (hidle : cpu.Idle) {cs : Control → Bool}
    (hb : RespectsBuses cs) :
    (∀ d, cpu.datapath.step cs = .ok d →
      (writePhase >>= fun _ => readPhase >>= fun _ => processPhase >>= fun _ => clearPhase >>=
        fun _ => endTick) { cpu with currentPhase := .control, asserted := cs } =
          .ok () (cpu.afterTick cs d)) ∧
    (∀ e, cpu.datapath.step cs = .error e →
      (writePhase >>= fun _ => readPhase >>= fun _ => processPhase >>= fun _ => clearPhase >>=
        fun _ => endTick) { cpu with currentPhase := .control, asserted := cs } =
          .error e (cpu.atStore cs)) := by
  rw [bind_of_ok (writePhase_eq hidle hb)]
  have hread := readPhase_eq cpu hb
  unfold atStore Datapath.untilStore Datapath.step
  generalize (cpu.datapath.drive cs) = w at hread ⊢
  simp only at hread ⊢
  generalize front.foldl (Component.read cs w.2) w.1 = d₁ at hread ⊢
  by_cases hr : cs .memoryRead = true
  · rw [if_pos hr] at hread ⊢
    cases hw : d₁.memory.writeAt d₁.mar (w.2.data.getD 0) with
    | ok m =>
        rw [hw] at hread
        refine ⟨fun d hd => ?_, fun e he => (by cases he)⟩
        cases hd
        rw [bind_of_ok hread]
        exact afterRead_eq cpu cs _ _
    | error e =>
        rw [hw] at hread
        refine ⟨fun d hd => (by cases hd), fun e' he => ?_⟩
        cases he
        exact bind_of_error hread
  · rw [if_neg hr] at hread ⊢
    refine ⟨fun d hd => ?_, fun e he => (by cases he)⟩
    cases hd
    rw [bind_of_ok hread]
    exact afterRead_eq cpu cs _ _

/-! ## The whole tick -/

theorem tick_of_halted {cpu : Cpu} (h : cpu.halted = true) : tick cpu = .ok () cpu := by
  show (if cpu.halted = true then _ else _ : SimM Unit) cpu = _
  rw [if_pos h]
  rfl

theorem tick_run {cpu : Cpu} (h : cpu.halted = false) :
    tick cpu = (controlPhase >>= fun _ => writePhase >>= fun _ => readPhase >>= fun _ =>
      processPhase >>= fun _ => clearPhase >>= fun _ => endTick) cpu := by
  show (if cpu.halted = true then _ else _ : SimM Unit) cpu = _
  rw [if_neg (by rw [h]; decide)]

/-- A tick whose lookup fails throws the error of the lookup. -/
theorem tick_of_lookup_error {cpu : Cpu} (h : cpu.halted = false) {e : SimError}
    (hl : cpu.lookup = .error e) : tick cpu = .error e { cpu with currentPhase := .control } := by
  rw [tick_run h]
  exact bind_of_error (controlPhase_error hl)

/-- A tick from an idle state is a step of the datapath under the controls it looks up. -/
theorem tick_of_step {cpu : Cpu} (hidle : cpu.Idle) (h : cpu.halted = false)
    {controls : List Control} (hl : cpu.lookup = .ok controls)
    (hb : RespectsBuses (cpu.assertedBy controls)) {d : Datapath}
    (hd : cpu.datapath.step (cpu.assertedBy controls) = .ok d) :
    tick cpu = .ok () (cpu.afterTick (cpu.assertedBy controls) d) := by
  rw [tick_run h, bind_of_ok (controlPhase_eq hidle hl)]
  exact (afterControl_eq hidle hb).1 d hd

/-- A tick whose store fails throws the error of the store, in the middle of the Read phase. -/
theorem tick_of_step_error {cpu : Cpu} (hidle : cpu.Idle) (h : cpu.halted = false)
    {controls : List Control} (hl : cpu.lookup = .ok controls)
    (hb : RespectsBuses (cpu.assertedBy controls)) {e : SimError}
    (he : cpu.datapath.step (cpu.assertedBy controls) = .error e) :
    tick cpu = .error e (cpu.atStore (cpu.assertedBy controls)) := by
  rw [tick_run h, bind_of_ok (controlPhase_eq hidle hl)]
  exact (afterControl_eq hidle hb).2 e he

theorem step_error_isMemoryWrite {d : Datapath} {cs : Control → Bool} {e : SimError}
    (h : d.step cs = .error e) : e.IsMemoryWrite := by
  unfold Datapath.step at h
  simp only at h
  split at h
  · generalize front.foldl (Component.read cs (d.drive cs).2) (d.drive cs).1 = d₁ at h
    cases hw : d₁.memory.writeAt d₁.mar ((d.drive cs).2.data.getD 0) with
    | ok m =>
        rw [hw] at h
        cases h
    | error e' =>
        rw [hw] at h
        cases h
        exact Memory.writeAt_error hw
  · cases h

theorem idle_afterTick (cpu : Cpu) (cs : Control → Bool) (d : Datapath) :
    (cpu.afterTick cs d).Idle :=
  ⟨fun _ hc => if_pos hc, rfl, rfl⟩

end Cpu

end Irata2.Sim
