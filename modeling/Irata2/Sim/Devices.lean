import Irata2.Library.Traces
import Irata2.Microcode.Irata
import Irata2.Microcode.Pipeline
import Irata2.Sim.Keyboard
import Irata2.Sim.MemoryMap
import Irata2.Sim.Replay

/-!
# Devices on the bus

A device is one of the memory regions.  The loads and stores of the processor in its window, and
what the host does to it, are all that it is given, and it answers them as it does on its own.  So
what is proved of a device by itself holds of it in every run of the CPU.
-/

namespace Irata2.Sim

open Hdl Library Library.StateRun Library.Traces Microcode

def HostInput.event : HostInput → InputEvent
  | .injectKey keyCode => .injectKey keyCode
  | .setKeyDown bit => .setKeyDown bit
  | .setKeyUp bit => .setKeyUp bit

/-- A kind of device: the modules that are one, and how they answer. -/
structure DeviceKind (D : Type) where
  get : ∀ {size : Nat}, Module size → Option D
  step : D → InputEvent → Option Byte × D
  size_of_get : ∀ {size : Nat} {m : Module size} {d : D}, get m = some d → size = mmioSize
  read : ∀ {size : Nat} {path : String} {m m' : Module size} {address : Word} {v : Byte} {d : D},
    get m = some d → m.read path address = .ok (v, m') →
      ∃ d', step d (.read address) = (some v, d') ∧ get m' = some d'
  write : ∀ {size : Nat} {m m' : Module size} {address : Word} {v : Byte} {d : D},
    get m = some d → m.write address v = .ok m' →
      ∃ d', step d (.write address v) = (none, d') ∧ get m' = some d'
  host : ∀ {size : Nat} {m : Module size} {d : D} (i : HostInput),
    get m = some d → ∃ d', step d i.event = (none, d') ∧ get (m.host i) = some d'

/-! ## Events on the bus -/

/-- What happens on the bus, with the byte that it carries, and between the ticks. -/
inductive BusEvent
  | load (address : Word) (value : Byte)
  | store (address : Word) (value : Byte)
  | host (index : Nat) (input : HostInput)
  deriving DecidableEq, Repr

/-- Whether an address is in the window of a device. -/
def isRegister (base address : Word) : Bool :=
  decide (base.toNat ≤ address.toNat) && decide (address.toNat < base.toNat + mmioSize)

/-- What an event is for the device in the region with an index, with the answer that it got. -/
def BusEvent.toDevice (index : Nat) (base : Word) : BusEvent → Option (InputEvent × Option Byte)
  | .load address value =>
      if isRegister base address then some (.read (address - base), some value) else none
  | .store address value =>
      if isRegister base address then some (.write (address - base) value, none) else none
  | .host i input => if i = index then some (input.event, none) else none

/-- The traffic of a device among all events. -/
def deviceTraffic (index : Nat) (base : Word) (log : List BusEvent) :
    List (InputEvent × Option Byte) :=
  log.filterMap (BusEvent.toDevice index base)

namespace Memory

/-- In a memory, one region has the address of an access; the others stay. -/
theorem accessed_writeRegions {address : Word} {v : Byte} {rs rs' : List Region}
    (hdisjoint : (rs.map Region.window).Pairwise windowsDisjoint)
    (h : writeRegions address v rs = .ok rs') :
    List.Forall₂ (fun r r' : Region =>
      (r.contains address = true ∧ r.write address v = .ok r') ∨
        (r.contains address = false ∧ r' = r)) rs rs' := by
  induction rs generalizing rs' with
  | nil => cases h
  | cons r rs ih =>
      obtain ⟨hfirst, hrest⟩ := List.pairwise_cons.mp hdisjoint
      obtain ⟨hc, r', hr, rfl⟩ | ⟨hc, rs'', hr, rfl⟩ := writeRegions_cons h
      · refine List.Forall₂.cons (.inl ⟨hc, hr⟩) (List.forall₂_same.mpr fun s hs => .inr ⟨?_, rfl⟩)
        -- no later window holds the address
        rw [Bool.eq_false_iff]
        intro hsc
        exact not_disjoint_of_contains hc hsc (hfirst _ (List.mem_map_of_mem hs))
      · exact List.Forall₂.cons (.inr ⟨hc, rfl⟩) (ih hrest hr)

theorem accessed_readRegions {address : Word} {v : Byte} {rs rs' : List Region}
    (hdisjoint : (rs.map Region.window).Pairwise windowsDisjoint)
    (h : readRegions address rs = .ok (v, rs')) :
    List.Forall₂ (fun r r' : Region =>
      (r.contains address = true ∧ r.read address = .ok (v, r')) ∨
        (r.contains address = false ∧ r' = r)) rs rs' := by
  induction rs generalizing rs' with
  | nil =>
      cases h
      exact .nil
  | cons r rs ih =>
      obtain ⟨hfirst, hrest⟩ := List.pairwise_cons.mp hdisjoint
      obtain ⟨hc, r', hr, rfl⟩ | ⟨hc, rs'', hr, rfl⟩ := readRegions_cons h
      · refine List.Forall₂.cons (.inl ⟨hc, hr⟩) (List.forall₂_same.mpr fun s hs => .inr ⟨?_, rfl⟩)
        rw [Bool.eq_false_iff]
        intro hsc
        exact not_disjoint_of_contains hc hsc (hfirst _ (List.mem_map_of_mem hs))
      · exact List.Forall₂.cons (.inr ⟨hc, rfl⟩) (ih hrest hr)

theorem getElem?_of_forall₂ {α : Type*} {R : α → α → Prop} {l l' : List α}
    (h : List.Forall₂ R l l') {i : Nat} {x : α} (hx : l[i]? = some x) :
    ∃ x', l'[i]? = some x' ∧ R x x' := by
  induction h generalizing i with
  | nil => cases hx
  | @cons a b l l' hab _ ih =>
      cases i with
      | zero =>
          cases hx
          exact ⟨b, rfl, hab⟩
      | succ i => exact ih hx

section Device

variable {D : Type} (k : DeviceKind D)

/-- The device in the region with an index, if it is there and its window begins at `base`. -/
def device (m : Memory) (index : Nat) (base : Word) : Option D :=
  m.regions[index]?.bind fun r => if r.offset = base then k.get r.module else none

variable {k} {m m' : Memory} {index : Nat} {base address : Word} {v : Byte} {d : D}

theorem device_eq_some : m.device k index base = some d ↔
    ∃ r, m.regions[index]? = some r ∧ r.offset = base ∧ k.get r.module = some d := by
  unfold device
  rw [Option.bind_eq_some_iff]
  constructor
  · rintro ⟨r, hr, hd⟩
    by_cases hbase : r.offset = base
    · rw [if_pos hbase] at hd
      exact ⟨r, hr, hbase, hd⟩
    · rw [if_neg hbase] at hd
      cases hd
  · rintro ⟨r, hr, hbase, hd⟩
    refine ⟨r, hr, ?_⟩
    rw [if_pos hbase]
    exact hd

/-- A device is visible at the addresses of its registers. -/
theorem contains_eq_isRegister {r : Region} (hd : k.get r.module = some d) (address : Word) :
    r.contains address = isRegister r.offset address := by
  have hsize : r.size = mmioSize := k.size_of_get hd
  rw [Bool.eq_iff_iff, Region.contains_iff (by rw [hsize]; decide), hsize]
  unfold isRegister
  rw [Bool.and_eq_true, decide_eq_true_eq, decide_eq_true_eq]

/-- A store is an event of the device whose window it is in. -/
theorem device_writeAt (h : m.writeAt address v = .ok m') (hd : m.device k index base = some d) :
    ∃ d', m'.device k index base = some d' ∧
      Logs k.step d (deviceTraffic index base [.store address v]) d' := by
  obtain ⟨r, hr, rfl, hget⟩ := device_eq_some.mp hd
  obtain ⟨r', hr', hacc⟩ :=
    getElem?_of_forall₂ (accessed_writeRegions m.disjoint (writeAt_eq_ok.mp h)) hr
  have hcontains := contains_eq_isRegister hget address
  unfold deviceTraffic
  obtain ⟨hc, hwrite⟩ | ⟨hc, rfl⟩ := hacc
  · obtain ⟨module, hmodule, rfl⟩ := Region.write_eq hwrite
    obtain ⟨d', hstep, hget'⟩ := k.write hget hmodule
    refine ⟨d', device_eq_some.mpr ⟨_, hr', rfl, hget'⟩, ?_⟩
    have hpick : BusEvent.toDevice index r.offset (.store address v) =
        some (.write (address - r.offset) v, none) :=
      if_pos (hcontains.symm.trans hc)
    rw [List.filterMap_cons_some hpick]
    exact .single hstep
  · refine ⟨d, device_eq_some.mpr ⟨_, hr', rfl, hget⟩, ?_⟩
    have hpick : BusEvent.toDevice index r'.offset (.store address v) = none := by
      apply if_neg
      rw [← hcontains, hc]
      decide
    rw [List.filterMap_cons_none hpick]
    exact .nil d

/-- A load is one as well, and brings what the device answers. -/
theorem device_afterRead (address : Word) (hd : m.device k index base = some d) :
    ∃ d', (m.afterRead address).device k index base = some d' ∧
      Logs k.step d (deviceTraffic index base [.load address (m.byteAt address)]) d' := by
  obtain ⟨r, hr, rfl, hget⟩ := device_eq_some.mp hd
  obtain ⟨r', hr', hacc⟩ :=
    getElem?_of_forall₂ (accessed_readRegions m.disjoint (m.readRegions_eq address)) hr
  have hcontains := contains_eq_isRegister hget address
  unfold deviceTraffic
  obtain ⟨hc, hread⟩ | ⟨hc, rfl⟩ := hacc
  · obtain ⟨module, hmodule, rfl⟩ := Region.read_eq hread
    obtain ⟨d', hstep, hget'⟩ := k.read hget hmodule
    refine ⟨d', device_eq_some.mpr ⟨_, hr', rfl, hget'⟩, ?_⟩
    have hpick : BusEvent.toDevice index r.offset (.load address (m.byteAt address)) =
        some (.read (address - r.offset), some (m.byteAt address)) :=
      if_pos (hcontains.symm.trans hc)
    rw [List.filterMap_cons_some hpick]
    exact .single hstep
  · refine ⟨d, device_eq_some.mpr ⟨_, hr', rfl, hget⟩, ?_⟩
    have hpick : BusEvent.toDevice index r'.offset (.load address (m.byteAt address)) = none := by
      apply if_neg
      rw [← hcontains, hc]
      decide
    rw [List.filterMap_cons_none hpick]
    exact .nil d

/-- The host acts on the device of its index. -/
theorem device_host (i : Nat) (input : HostInput) (hd : m.device k index base = some d) :
    ∃ d', (m.host i input).device k index base = some d' ∧
      Logs k.step d (deviceTraffic index base [.host i input]) d' := by
  obtain ⟨r, hr, rfl, hget⟩ := device_eq_some.mp hd
  have hregions : (m.host i input).regions[index]? =
      if i = index then some (r.host input) else some r := by
    show (m.regions.modify i fun r => r.host input)[index]? = _
    rw [List.getElem?_modify, hr]
    show some (if i = index then r.host input else r) = _
    split <;> rfl
  unfold deviceTraffic
  by_cases hi : i = index
  · obtain ⟨d', hstep, hget'⟩ := k.host input hget
    rw [if_pos hi] at hregions
    refine ⟨d', device_eq_some.mpr ⟨_, hregions, rfl, hget'⟩, ?_⟩
    have hpick : BusEvent.toDevice index r.offset (.host i input) = some (input.event, none) :=
      if_pos hi
    rw [List.filterMap_cons_some hpick]
    exact .single hstep
  · rw [if_neg hi] at hregions
    refine ⟨d, device_eq_some.mpr ⟨_, hregions, rfl, hget⟩, ?_⟩
    have hpick : BusEvent.toDevice index r.offset (.host i input) = none := if_neg hi
    rw [List.filterMap_cons_none hpick]
    exact .nil d

end Device

end Memory

/-! ## The events of a tick -/

namespace Datapath

open Component

/-- The load and the store of a tick, with the byte on the data bus. -/
def events (cs : Control → Bool) (d : Datapath) : List BusEvent :=
  (if cs .memoryWrite then [.load d.mar ((d.drive cs).2.data.getD 0)] else []) ++
    if cs .memoryRead then [.store (d.untilStore cs).1.mar ((d.drive cs).2.data.getD 0)] else []

theorem data_write_of_not_drives {cs : Control → Bool} {c : Component}
    (h : c.drives cs .data = false) (w : Datapath × Buses) :
    (c.write cs w).2.data = w.2.data := by
  cases c with
  | byteRegister r =>
      have hw : cs r.write = false := by
        simpa [drives, writeControl, Control.bus] using h
      show (if cs r.write then _ else w : Datapath × Buses).2.data = _
      rw [hw]
      rfl
  | wordRegister r =>
      show (if cs r.write then _ else w : Datapath × Buses).2.data = _
      split <;> rfl
  | memory =>
      have hw : cs .memoryWrite = false := by
        simpa [drives, writeControl, Control.bus] using h
      show (if cs .memoryWrite then _ else w : Datapath × Buses).2.data = _
      rw [hw]
      rfl
  | _ => rfl

/-- A load brings the byte of the memory, because nothing else drives the bus in its tick. -/
theorem data_drive {cs : Control → Bool} (hb : RespectsBuses cs) (hw : cs .memoryWrite = true)
    (d : Datapath) : (d.drive cs).2.data = some (d.memory.byteAt d.mar) := by
  have hmemory : Component.memory.drives cs .data = true := by
    show (cs .memoryWrite && _) = true
    rw [hw]
    rfl
  -- only one component drives the data bus, and the memory does
  have hsingle := hb.single .data
  rw [children_eq, List.countP_append, List.countP_cons_of_pos hmemory] at hsingle
  have hafter : childrenAfter.countP (drives cs .data) = 0 := by omega
  have hback : ∀ c ∈ back, c.drives cs .data = false := by
    intro c hc
    rw [← filter_isActive_after] at hc
    have hnot := List.countP_eq_zero.mp hafter c (List.mem_of_mem_filter hc)
    exact Bool.eq_false_iff.mpr hnot
  have hfront : ∀ (l : List Component), .memory ∉ l → ∀ w : Datapath × Buses,
      (l.foldl (fun w c => c.write cs w) w).1 = w.1 := by
    intro l
    induction l with
    | nil => exact fun _ _ => rfl
    | cons c l ih =>
        intro hl w
        rw [List.mem_cons, not_or] at hl
        rw [List.foldl_cons, ih hl.2]
        cases c with
        | memory => exact absurd rfl hl.1
        | byteRegister r | wordRegister r =>
            simp only [Component.write]
            split <;> rfl
        | _ => rfl
  have hfold : ∀ (l : List Component), (∀ c ∈ l, c.drives cs .data = false) →
      ∀ w : Datapath × Buses, (l.foldl (fun w c => c.write cs w) w).2.data = w.2.data := by
    intro l
    induction l with
    | nil => exact fun _ _ => rfl
    | cons c l ih =>
        intro hl w
        rw [List.forall_mem_cons] at hl
        rw [List.foldl_cons, ih hl.2, data_write_of_not_drives hl.1]
  unfold drive components
  rw [List.foldl_append, List.foldl_cons, hfold back hback]
  have hstart := hfront front (by decide) (d, Buses.empty)
  generalize front.foldl (fun w c => c.write cs w) (d, Buses.empty) = w at hstart
  have hd : w.1 = d := hstart
  -- so the byte is still on the bus when the other components have been visited
  rw [← hd]
  show (if cs .memoryWrite then _ else w : Datapath × Buses).2.data = _
  rw [if_pos hw]

/-- A tick gives a device its load and its store. -/
theorem device_step {D : Type} {k : DeviceKind D} {cs : Control → Bool} {d d' : Datapath}
    (hb : RespectsBuses cs) (h : d.step cs = .ok d') {index : Nat} {base : Word} {x : D}
    (hx : d.memory.device k index base = some x) :
    ∃ x', d'.memory.device k index base = some x' ∧
      Logs k.step x (deviceTraffic index base (d.events cs)) x' := by
  -- up to the store, the load
  have hload : ∃ x₁, (d.untilStore cs).1.memory.device k index base = some x₁ ∧
      Logs k.step x (deviceTraffic index base
        (if cs .memoryWrite then [.load d.mar ((d.drive cs).2.data.getD 0)] else [])) x₁ := by
    rw [memory_untilStore]
    by_cases hw : cs .memoryWrite = true
    · rw [if_pos hw, if_pos hw, data_drive hb hw]
      exact Memory.device_afterRead d.mar hx
    · rw [if_neg hw, if_neg hw]
      exact ⟨x, hx, .nil x⟩
  obtain ⟨x₁, hx₁, hlog⟩ := hload
  have hstore : ∃ x', d'.memory.device k index base = some x' ∧
      Logs k.step x₁ (deviceTraffic index base (if cs .memoryRead then
        [.store (d.untilStore cs).1.mar ((d.drive cs).2.data.getD 0)] else [])) x' := by
    change (if cs .memoryRead then ((d.untilStore cs).1.memory.writeAt (d.untilStore cs).1.mar
      ((d.drive cs).2.data.getD 0)).map _ else .ok _) = _ at h
    by_cases hr : cs .memoryRead = true
    · rw [if_pos hr] at h ⊢
      cases hw : (d.untilStore cs).1.memory.writeAt (d.untilStore cs).1.mar
        ((d.drive cs).2.data.getD 0) with
      | error e =>
          rw [hw] at h
          cases h
      | ok m =>
          rw [hw] at h
          cases h
          rw [memory_finish]
          exact Memory.device_writeAt hw hx₁
    · rw [if_neg hr] at h ⊢
      cases h
      rw [memory_finish]
      exact ⟨x₁, hx₁, .nil x₁⟩
  obtain ⟨x', hx', hlog'⟩ := hstore
  refine ⟨x', hx', ?_⟩
  unfold deviceTraffic events
  rw [List.filterMap_append]
  exact hlog.append hlog'

end Datapath

/-! ## Runs with their events -/

namespace Cpu

/-- The events of the next tick of a CPU between ticks. -/
def events (cpu : Cpu) : List BusEvent :=
  if cpu.halted then []
  else
    match cpu.lookup with
    | .ok controls => cpu.datapath.events (cpu.assertedBy controls)
    | .error _ => []

theorem events_of_halted {cpu : Cpu} (h : cpu.halted = true) : cpu.events = [] := by
  unfold events
  rw [h]
  rfl

theorem events_of_lookup {cpu : Cpu} (hh : cpu.halted = false) {controls : List Control}
    (hl : cpu.lookup = .ok controls) :
    cpu.events = cpu.datapath.events (cpu.assertedBy controls) := by
  unfold events
  rw [hh, hl]
  rfl

/-- A step of a run with its events. -/
inductive EventStep : Cpu → List BusEvent → Cpu → Prop
  | tick {s t : Cpu} (h : Cpu.tick s = .ok () t) : EventStep s s.events t
  | tickError {s t : Cpu} {e : SimError} (h : Cpu.tick s = .error e t) (he : ¬e.IsMemoryWrite) :
      EventStep s [] t
  | host (s : Cpu) (index : Nat) (i : HostInput) : EventStep s [.host index i] (s.host index i)

abbrev EventRun : Cpu → List BusEvent → Cpu → Prop := Trace EventStep

theorem EventStep.step {s t : Cpu} {events : List BusEvent} (h : EventStep s events t) :
    Step s t := by
  cases h with
  | tick h => exact .tick h
  | tickError h he => exact .tickError h he
  | host index i => exact .host s index i

theorem EventRun.run {s t : Cpu} {log : List BusEvent} (h : EventRun s log t) : Run s t := by
  induction h with
  | refl => exact .refl
  | tail _ hstep ih => exact ih.tail hstep.step

/-- Every run has its events. -/
theorem exists_eventRun {s t : Cpu} (h : Run s t) : ∃ log, EventRun s log t := by
  induction h with
  | refl => exact ⟨[], .refl⟩
  | tail _ hstep ih =>
      obtain ⟨log, hlog⟩ := ih
      cases hstep with
      | tick h => exact ⟨_, hlog.tail (.tick h)⟩
      | tickError h he => exact ⟨_, hlog.tail (.tickError h he)⟩
      | host index i => exact ⟨_, hlog.tail (.host _ index i)⟩

/-- The events of successive ticks, none of which throws, and the state behind them. -/
def tickEvents : Nat → Cpu → Option (List BusEvent × Cpu)
  | 0, cpu => some ([], cpu)
  | n + 1, cpu =>
      match tick cpu with
      | .ok _ t => (tickEvents n t).map fun r => (cpu.events ++ r.1, r.2)
      | .error _ _ => none

theorem eventRun_tickEvents {n : Nat} {s t : Cpu} {log : List BusEvent}
    (h : tickEvents n s = some (log, t)) : EventRun s log t := by
  induction n generalizing s log with
  | zero =>
      cases h
      exact .refl
  | succ n ih =>
      unfold tickEvents at h
      cases htick : tick s with
      | ok u t' =>
          rw [htick] at h
          obtain ⟨⟨rest, t''⟩, hrest, heq⟩ := Option.map_eq_some_iff.mp h
          cases heq
          exact (Trace.single (.tick htick)).trans (ih hrest)
      | error e t' =>
          rw [htick] at h
          cases h

section Compiled

variable {c : Compiler} {is : InstructionSet} {p : MicrocodeProgram} {cpu cpu' : Cpu}
  {log : List BusEvent} {D : Type} {k : DeviceKind D} {index : Nat} {base : Word} {d : D}

/-- A step gives the device its events. -/
theorem EventStep.device (hc : c.compile is = .ok p) (hload : cpu.Loaded p)
    (h : EventStep cpu log cpu') (hd : cpu.datapath.memory.device k index base = some d) :
    ∃ d', cpu'.datapath.memory.device k index base = some d' ∧
      Logs k.step d (deviceTraffic index base log) d' := by
  cases h with
  | tick ht =>
      obtain ⟨hh, ht'⟩ | ⟨e, -, -, ht'⟩ | ⟨controls, d', hh, hl, hstep, ht'⟩ | ⟨e, s, -, ht'⟩ :=
        tick_cases hc hload
      · cases ht.symm.trans ht'
        rw [events_of_halted hh]
        exact ⟨d, hd, .nil d⟩
      · cases ht.symm.trans ht'
      · cases ht.symm.trans ht'
        rw [events_of_lookup hh hl]
        exact Datapath.device_step (respectsBuses_of_lookup hc hload hl) hstep hd
      · cases ht.symm.trans ht'
  | tickError ht he =>
      obtain ⟨-, ht'⟩ | ⟨e', -, -, ht'⟩ | ⟨controls, d', -, -, -, ht'⟩ | ⟨e', s, hwrite, ht'⟩ :=
        tick_cases hc hload
      · cases ht.symm.trans ht'
      · -- a tick without an entry leaves the memory alone
        cases ht.symm.trans ht'
        exact ⟨d, hd, .nil d⟩
      · cases ht.symm.trans ht'
      · cases ht.symm.trans ht'
        exact absurd hwrite he
  | host i input => exact Memory.device_host i input hd

/-- In a run, a device has answered its deviceTraffic. -/
theorem EventRun.device (hc : c.compile is = .ok p) (hload : cpu.Loaded p)
    (h : EventRun cpu log cpu') (hd : cpu.datapath.memory.device k index base = some d) :
    ∃ d', cpu'.datapath.memory.device k index base = some d' ∧
      Logs k.step d (deviceTraffic index base log) d' := by
  have hrun := h.logs k.step (BusEvent.toDevice index base)
    (fun s x => s.Loaded p ∧ s.datapath.memory.device k index base = some x)
    (fun hs hview => ?_) ⟨hload, hd⟩
  · obtain ⟨d', hview, hlogs⟩ := hrun
    exact ⟨d', hview.2, hlogs⟩
  · obtain ⟨d', hd', hlogs⟩ := hs.device hc hview.1 hview.2
    exact ⟨d', ⟨loaded_step hc hview.1 hs.step, hd'⟩, hlogs⟩

end Compiled

/-! ## Programs of loads and stores -/

section Accumulator

open Hdl.Control Hdl.ByteRegister Hdl.WordRegister

/-- The steps of an absolute address, and what is done there. -/
def absoluteSteps (last : List Control) : List (List Control) := [
  [pc.write, mar.read],
  [memoryWrite, marLow.read, aluResult.read, pcIncrement],
  [pc.write, mar.read],
  [memoryWrite, marHigh.read, pcIncrement],
  [aluResult.write, marLow.read],
  last]

/-- LDA with an immediate operand, and LDA and STA with an absolute one. -/
def accumulatorSteps (opcode : Byte) : List (List Control) :=
  if opcode = 0x10 then
    [[pc.write, mar.read], [memoryWrite, a.read, statusAnalyzer.read, pcIncrement]]
  else if opcode = 0x50 then absoluteSteps [memoryWrite, a.read, statusAnalyzer.read]
  else if opcode = 0x51 then absoluteSteps [a.write, memoryRead]
  else []

/-- The part of the default microcode that has these three instructions. -/
def accumulatorSet : InstructionSet where
  fetchPreamble := Irata.fetchPreamble
  instructions := Isa.instructions.map fun i =>
    ⟨i.opcode,
      if accumulatorSteps i.opcode = [] then []
      else Irata.always (accumulatorSteps i.opcode)⟩

def accumulatorEntries (opcode : Byte) : List (Nat × ControlWord) :=
  let steps := Irata.fetchPreamble.map (·.controls) ++ accumulatorSteps opcode
  steps.zipIdx.map fun s =>
    (encodeKey ⟨opcode, BitVec.ofNat 8 s.2, 0⟩,
      encodeControls (s.1 ++ [if s.2 + 1 = steps.length then scReset else scIncrement]))

def accumulatorProgram : MicrocodeProgram :=
  ⟨[0x10, 0x50, 0x51].flatMap accumulatorEntries, controlPaths, []⟩

theorem compile_accumulatorSet :
    Compiler.statusless.compile accumulatorSet = .ok accumulatorProgram := by
  have hvalid : Compiler.statusless.runAllValidators
      (Compiler.statusless.prepared accumulatorSet) = .ok () := by
    refine runAllValidators_of_opcodes ?_ (by decide +kernel) (by decide +kernel)
      (by decide +kernel) (by decide +kernel) (by decide +kernel)
    rw [Compiler.opcodes_prepared, accumulatorSet, List.map_map]
    rfl
  have hfetch : fetchValidator (fetchTransformer accumulatorSet) = .ok () := by decide +kernel
  have hvariants : ∃ i ∈ accumulatorSet.instructions, i.variants ≠ [] := by decide +kernel
  have hencode : Compiler.statusless.encode (Compiler.statusless.optimized accumulatorSet) =
      .ok accumulatorProgram := by
    decide +kernel
  exact bind_eq_ok.mpr ⟨_, Compiler.optimizedIr_of_valid hfetch hvalid (.inl hvariants), hencode⟩

def accumulatorMemory : InstructionMemory :=
  match InstructionMemory.new cpuControls accumulatorProgram with
  | .ok m => m
  | .error _ => ⟨[], [], ⟨0, 0⟩⟩

theorem new_accumulatorMemory :
    InstructionMemory.new cpuControls accumulatorProgram = .ok accumulatorMemory := by
  obtain ⟨ir, -, -, henc⟩ := exists_ir_of_compile compile_accumulatorSet
  obtain ⟨rom, hrom⟩ := @InstructionMemory.exists_new _ _ _ henc [] (by decide) rfl
  unfold accumulatorMemory
  rw [hrom]

/-- A CPU on a cartridge and one more region, before its first tick. -/
theorem new_accumulator {rom : List Byte} {cartridge region : Region} {memory : Memory}
    (hcartridge : newCartridgeRegion rom = .ok cartridge)
    (hmemory : Memory.new [ramRegion, cartridge, region] = .ok memory) :
    Cpu.new accumulatorProgram rom [region] = .ok (initial memory accumulatorMemory) := by
  have hram : newRamRegion = .ok ramRegion := by rfl
  unfold Cpu.new
  rw [hram, hcartridge, Component.controlOrder_eq]
  exact bind_eq_ok.mpr ⟨_, rfl, bind_eq_ok.mpr ⟨_, rfl, bind_eq_ok.mpr ⟨memory, hmemory,
    bind_eq_ok.mpr ⟨_, new_accumulatorMemory, rfl⟩⟩⟩⟩

end Accumulator

end Cpu

end Irata2.Sim
