import Irata2.Sim.Cells
import Irata2.Sim.Sequencing
import Irata2.Microcode.Bodies
import Irata2.Microcode.Program

/-!
# The visiting order of the components

Within a phase the components are visited in the order of their registration.  In a step of the
default microcode no component changes what another one reads or changes in the same phase, so
every other order leaves the same state.
-/

namespace Irata2.Sim

open Hdl Library Library.StateRun Microcode
open Datapath (on)

namespace Component

/-! ## Steps without an order -/

/-- The components that change the registers or the buses, up to the step counter. -/
def acting : List Component := Datapath.components ++ [.controller, .ipc]

/-- Those that change something in a phase. -/
def movers (writes : Component → List Cell) : List Component :=
  acting.filter fun c => writes c ≠ []

/-- No component changes in a phase what another one reads or changes there. -/
def Unordered (reads writes : Component → List Cell) : Prop :=
  ∀ i ∈ movers writes, ∀ j ∈ movers writes, i ≠ j →
    Independent (reads i) (writes i) (reads j) (writes j)

instance (reads writes : Component → List Cell) : Decidable (Unordered reads writes) :=
  inferInstanceAs (Decidable (∀ i ∈ movers writes, ∀ j ∈ movers writes, i ≠ j → _))

/-- The phases of a tick do not depend on the visiting order. -/
structure OrderFree (cs : Control → Bool) : Prop where
  write : Unordered (writeReads cs) (writeWrites cs)
  read : Unordered (readReads cs) (readWrites cs)
  process : Unordered (processReads cs) (processWrites cs)
  -- a store goes to the address from before the Read phase
  store : cs .memoryRead = true → ∀ c ∈ movers (readWrites cs), ∀ k ∈ readWrites cs c,
    k ∉ Cell.ofWord .mar

theorem orderFree_iff (cs : Control → Bool) : OrderFree cs ↔
    Unordered (writeReads cs) (writeWrites cs) ∧ Unordered (readReads cs) (readWrites cs) ∧
      Unordered (processReads cs) (processWrites cs) ∧
      (cs .memoryRead = true → ∀ c ∈ movers (readWrites cs), ∀ k ∈ readWrites cs c,
        k ∉ Cell.ofWord .mar) :=
  ⟨fun h => ⟨h.write, h.read, h.process, h.store⟩, fun h => ⟨h.1, h.2.1, h.2.2.1, h.2.2.2⟩⟩

instance (cs : Control → Bool) : Decidable (OrderFree cs) :=
  decidable_of_iff' _ (orderFree_iff cs)

/-- Every step of the default microcode is one. -/
theorem orderFree_instructionSet : ∀ i ∈ Irata.instructionSet.instructions, ∀ v ∈ i.variants,
    ∀ s ∈ v.steps, OrderFree (on s.controls) := by
  decide +kernel

theorem orderFree_fetchPreamble : ∀ s ∈ Irata.instructionSet.fetchPreamble,
    OrderFree (on s.controls) := by
  decide

/-- A step, from the preamble or a variant of the default microcode. -/
def IsDefaultStep (s : Microcode.Step) : Prop :=
  s ∈ Irata.instructionSet.fetchPreamble ∨
    ∃ i ∈ Irata.instructionSet.instructions, ∃ v ∈ i.variants, s ∈ v.steps

theorem orderFree_of_isDefaultStep {s : Microcode.Step} (h : IsDefaultStep s) :
    OrderFree (on s.controls) := by
  rcases h with h | ⟨i, hi, v, hv, h⟩
  · exact orderFree_fetchPreamble s h
  · exact orderFree_instructionSet i hi v hv s h

theorem irqLine_not_mem_of_isDefaultStep {s : Microcode.Step} (h : IsDefaultStep s) :
    Control.irqLine ∉ s.controls := by
  have hpreamble : ∀ s ∈ Irata.instructionSet.fetchPreamble, Control.irqLine ∉ s.controls := by
    decide
  have hvariants : ∀ i ∈ Irata.instructionSet.instructions, ∀ v ∈ i.variants, ∀ s ∈ v.steps,
      Control.irqLine ∉ s.controls := by
    decide +kernel
  rcases h with h | ⟨i, hi, v, hv, h⟩
  · exact hpreamble s h
  · exact hvariants i hi v hv s h

/-! ### Controls that do not matter -/

/-- The controls on which the footprints depend, up to that of the step counter. -/
def ordersComponents (c : Control) : Bool := c ≠ .irqLine && c.owner ≠ .sc

section Congr

variable {cs cs' : Control → Bool} (h : ∀ c, ordersComponents c = true → cs c = cs' c)

include h

theorem writeReads_congr : writeReads cs = writeReads cs' := by
  funext c
  cases c with
  | byteRegister r => simp only [writeReads, h (.writeByte r) rfl]
  | wordRegister r => simp only [writeReads, h (.writeWord r) rfl]
  | memory => simp only [writeReads, h .memoryWrite rfl]
  | _ => rfl

theorem writeWrites_congr : writeWrites cs = writeWrites cs' := by
  funext c
  cases c with
  | byteRegister r => simp only [writeWrites, h (.writeByte r) rfl]
  | wordRegister r => simp only [writeWrites, h (.writeWord r) rfl]
  | memory => simp only [writeWrites, h .memoryWrite rfl]
  | _ => rfl

theorem readReads_congr : readReads cs = readReads cs' := by
  funext c
  cases c with
  | byteRegister r => simp only [readReads, h (.readByte r) rfl]
  | wordRegister r => simp only [readReads, h (.readWord r) rfl]
  | _ => rfl

theorem readWrites_congr : readWrites cs = readWrites cs' := by
  have hbyte : ∀ r, cs (.readByte r) = cs' (.readByte r) := fun r => h _ rfl
  funext c
  cases c with
  | byteRegister r => cases r <;> simp only [readWrites, hbyte]
  | wordRegister r => simp only [readWrites, h (.readWord r) rfl]
  | _ => rfl

theorem aluOpcode_congr : aluOpcode cs = aluOpcode cs' := by
  unfold aluOpcode
  rw [h (.aluOpcodeBit 0) rfl, h (.aluOpcodeBit 1) rfl, h (.aluOpcodeBit 2) rfl,
    h (.aluOpcodeBit 3) rfl]

theorem processReads_congr {c : Component} (hc : c ≠ .sc) :
    processReads cs c = processReads cs' c := by
  have hbyte : ∀ r, cs (.resetByte r) = cs' (.resetByte r) := fun r => h _ rfl
  cases c with
  | byteRegister r =>
      cases r <;> simp only [processReads, hbyte, h .spIncrement rfl, h .spDecrement rfl,
        h .instructionStart rfl]
  | wordRegister r =>
      cases r <;> simp only [processReads, h (.resetWord _) rfl, h .pcIncrement rfl,
        h .pcAddSignedOffset rfl, h .marInterruptVector rfl, h .marIncrement rfl,
        h .marAddOffset rfl]
  | alu => simp only [processReads, aluOpcode_congr h]
  | controller => simp only [processReads, h .instructionStart rfl]
  | ipc => simp only [processReads, h .ipcLatch rfl]
  | sc => exact absurd rfl hc
  | _ => rfl

theorem processWrites_congr {c : Component} (hc : c ≠ .sc) :
    processWrites cs c = processWrites cs' c := by
  have hbyte : ∀ r, cs (.resetByte r) = cs' (.resetByte r) := fun r => h _ rfl
  cases c with
  | byteRegister r =>
      cases r <;> simp only [processWrites, hbyte, h .spIncrement rfl, h .spDecrement rfl,
        h .instructionStart rfl]
  | wordRegister r =>
      cases r <;> simp only [processWrites, h (.resetWord _) rfl, h .pcIncrement rfl,
        h .pcAddSignedOffset rfl, h .marInterruptVector rfl, h .marIncrement rfl,
        h .marAddOffset rfl, h .marStackPage rfl]
  | alu => simp only [processWrites, aluOpcode_congr h]
  | statusBit f => simp only [processWrites, h (.setStatus f) rfl, h (.clearStatus f) rfl]
  | controller => simp only [processWrites, h .instructionStart rfl]
  | ipc => simp only [processWrites, h .ipcLatch rfl]
  | sc => exact absurd rfl hc
  | _ => rfl

theorem unordered_process_congr (hfree : Unordered (processReads cs) (processWrites cs)) :
    Unordered (processReads cs') (processWrites cs') := by
  have hsc : ∀ c ∈ acting, c ≠ .sc := by
    decide
  have hmovers : movers (processWrites cs') = movers (processWrites cs) := by
    refine List.filter_congr fun c hc => ?_
    rw [processWrites_congr h (hsc c hc)]
  intro i hi j hj hij
  rw [hmovers] at hi hj
  have hfree' := hfree i hi j hj hij
  have hi' := hsc i (List.mem_of_mem_filter hi)
  have hj' := hsc j (List.mem_of_mem_filter hj)
  rw [processReads_congr h hi', processReads_congr h hj', processWrites_congr h hi',
    processWrites_congr h hj'] at hfree'
  exact hfree'

/-- The interrupt line and the controls of the step counter do not order the components. -/
theorem OrderFree.congr (hfree : OrderFree cs) : OrderFree cs' where
  write := by
    rw [← writeReads_congr h, ← writeWrites_congr h]
    exact hfree.write
  read := by
    rw [← readReads_congr h, ← readWrites_congr h]
    exact hfree.read
  process := unordered_process_congr h hfree.process
  store := by
    rw [← readWrites_congr h, ← h .memoryRead rfl]
    exact hfree.store

end Congr

/-! ### Pairs of components -/

theorem mem_acting {c : Component} (hcontrol : ∀ e, c ≠ control e) (hdata : c ≠ .dataBus)
    (haddress : c ≠ .addressBus) (hsc : c ≠ .sc) : c ∈ acting := by
  cases c with
  | control e => exact absurd rfl (hcontrol e)
  | dataBus => exact absurd rfl hdata
  | addressBus => exact absurd rfl haddress
  | sc => exact absurd rfl hsc
  | byteRegister r => cases r <;> decide
  | wordRegister r => cases r <;> decide
  | statusBit f => cases f <;> decide
  | _ => decide

/-- Controls and buses change nothing in a phase. -/
def Inert (writes : Component → List Cell) : Prop :=
  writes .dataBus = [] ∧ writes .addressBus = [] ∧ ∀ e, writes (.control e) = []

theorem independent_of_unordered {reads writes : Component → List Cell} (hinert : Inert writes)
    (h : Unordered reads writes) {i j : Component} (hi : writes i ≠ []) (hj : writes j ≠ [])
    (hij : i ≠ j) (hisc : i ≠ .sc) (hjsc : j ≠ .sc) :
    Independent (reads i) (writes i) (reads j) (writes j) := by
  have hmover : ∀ c, writes c ≠ [] → c ≠ .sc → c ∈ movers writes := by
    intro c hc hsc
    refine List.mem_filter.mpr ⟨mem_acting ?_ ?_ ?_ hsc, decide_eq_true hc⟩
    · rintro e rfl
      exact hc (hinert.2.2 e)
    · rintro rfl
      exact hc hinert.1
    · rintro rfl
      exact hc hinert.2.1
  exact h i (hmover i hi hisc) j (hmover j hj hjsc) hij

theorem sc_not_mem_processReads (cs : Control → Bool) {c : Component} (hc : c ≠ .sc) :
    Cell.sc ∉ processReads cs c := by
  cases c with
  | byteRegister r =>
      cases r <;> simp only [processReads] <;> first | decide | (split_ifs <;> decide)
  | wordRegister r =>
      cases r <;> simp only [processReads] <;> first | decide | (split_ifs <;> decide)
  | alu =>
      simp only [processReads, Cell.aluReads]
      split <;> decide
  | sc => exact absurd rfl hc
  | _ =>
      simp only [processReads]
      first | decide | (split_ifs <;> decide)

theorem sc_not_mem_processWrites (cs : Control → Bool) {c : Component} (hc : c ≠ .sc) :
    Cell.sc ∉ processWrites cs c := by
  cases c with
  | byteRegister r =>
      cases r <;> simp only [processWrites] <;> first | decide | (split_ifs <;> decide)
  | wordRegister r =>
      cases r <;> simp only [processWrites] <;> first | decide | (split_ifs <;> decide)
  | alu =>
      simp only [processWrites, Cell.aluWrites]
      split <;> decide
  | statusBit f =>
      simp only [processWrites]
      split_ifs <;> simp
  | sc => exact absurd rfl hc
  | _ =>
      simp only [processWrites]
      first | decide | (split_ifs <;> decide)

/-- The step counter only moves itself. -/
theorem independent_sc (cs : Control → Bool) {c : Component} (hc : c ≠ .sc) :
    Independent (processReads cs sc) (processWrites cs sc) (processReads cs c)
      (processWrites cs c) := by
  have hreads : ∀ k ∈ processReads cs sc, k = Cell.sc := by
    intro k hk
    simp only [processReads] at hk
    split_ifs at hk <;> first | exact List.mem_singleton.mp hk | cases hk
  have hwrites : ∀ k ∈ processWrites cs sc, k = Cell.sc := by
    intro k hk
    simp only [processWrites] at hk
    split_ifs at hk <;> first | exact List.mem_singleton.mp hk | cases hk
  refine ⟨fun k hk => ?_, fun k hk => ?_, fun k hk hk' => ?_⟩
  · rw [hwrites k hk]
    exact sc_not_mem_processWrites cs hc
  · rw [hwrites k hk]
    exact sc_not_mem_processReads cs hc
  · rw [hreads k hk'] at hk
    exact sc_not_mem_processWrites cs hc hk

/-! ## The effects of the phases -/

section Folds

variable {cs : Control → Bool} {l l' : List Component}

theorem foldl_stage_write (s : Stage) :
    l.foldl (Stage.write cs) s =
      { s with
        datapath := (l.foldl (fun w c => c.write cs w) (s.datapath, s.buses)).1
        buses := (l.foldl (fun w c => c.write cs w) (s.datapath, s.buses)).2 } := by
  induction l generalizing s with
  | nil => rfl
  | cons c l ih => exact ih _

theorem foldl_stage_read (s : Stage) :
    l.foldl (Stage.read cs) s =
      { s with datapath := l.foldl (Component.read cs s.buses) s.datapath } := by
  induction l generalizing s with
  | nil => rfl
  | cons c l ih => exact ih _

theorem foldl_stage_process (s : Stage) :
    l.foldl (Stage.process cs) s =
      { s with
        datapath := (l.foldl (processBoth cs) (s.datapath, s.controller)).1
        controller := (l.foldl (processBoth cs) (s.datapath, s.controller)).2 } := by
  induction l generalizing s with
  | nil => rfl
  | cons c l ih => exact ih _

/-- The Write phase in another order. -/
theorem foldl_write_perm (h : OrderFree cs) (hl : l.Perm l') (k : Controller)
    (w : Datapath × Buses) :
    l.foldl (fun w c => c.write cs w) w = l'.foldl (fun w c => c.write cs w) w := by
  have hperm := foldl_perm Cell.separates_get (footprint_write cs) hl
    (fun i _ j _ hij hi hj => independent_of_unordered ⟨rfl, rfl, fun _ => rfl⟩ h.write hi hj hij
      (by rintro rfl; exact hi rfl) (by rintro rfl; exact hj rfl)) ⟨w.1, w.2, k⟩
  rw [foldl_stage_write, foldl_stage_write] at hperm
  exact Prod.ext (congrArg (·.datapath) hperm) (congrArg (·.buses) hperm)

/-- The loads of the Read phase in another order. -/
theorem foldl_read_perm (h : OrderFree cs) (hl : l.Perm l') (k : Controller) (b : Buses)
    (d : Datapath) : l.foldl (Component.read cs b) d = l'.foldl (Component.read cs b) d := by
  have hperm := foldl_perm Cell.separates_get (footprint_read cs) hl
    (fun i _ j _ hij hi hj => independent_of_unordered ⟨rfl, rfl, fun _ => rfl⟩ h.read hi hj hij
      (by rintro rfl; exact hi rfl) (by rintro rfl; exact hj rfl)) ⟨d, b, k⟩
  rw [foldl_stage_read, foldl_stage_read] at hperm
  exact congrArg (·.datapath) hperm

/-- The Process phase in another order. -/
theorem foldl_process_perm (h : OrderFree cs) (hl : l.Perm l') (s : Datapath × Controller) :
    l.foldl (processBoth cs) s = l'.foldl (processBoth cs) s := by
  have hperm := foldl_perm Cell.separates_get (footprint_process cs) hl
    (fun i _ j _ hij hi hj => by
      by_cases hisc : i = .sc
      · rw [hisc] at hij ⊢
        exact independent_sc cs (Ne.symm hij)
      · by_cases hjsc : j = .sc
        · rw [hjsc] at hij ⊢
          exact (independent_sc cs hij).symm
        · exact independent_of_unordered ⟨rfl, rfl, fun _ => rfl⟩ h.process hi hj hij hisc hjsc)
    ⟨s.1, Buses.empty, s.2⟩
  rw [foldl_stage_process, foldl_stage_process] at hperm
  exact Prod.ext (congrArg (·.datapath) hperm) (congrArg (·.controller) hperm)

end Folds

end Component

end Irata2.Sim
