import Irata2.Library.Checks
import Irata2.Library.Patch
import Irata2.Sim.Memory

/-!
# The memory map as a store

A memory is built from the descriptions of its regions, and every sequence of reads and writes
after that treats it as a store: RAM addresses keep what was last written, ROM addresses what they
were built with, and a write that throws leaves everything as it was.
-/

namespace Irata2.Sim

open Library

/-! ## Writing in place -/

/-- `Module::Write` on the object itself: what it throws, if anything, and what it leaves. -/
def Module.writeInPlace {size : Nat} (m : Module size) (address : Word) (value : Byte) :
    Option SimError × Module size :=
  match m with
  | .ram cells =>
      if h : address.toNat < size then
        (none, .ram (Function.update cells ⟨address.toNat, h⟩ value))
      else (some (.ramWriteOutOfRange address), .ram cells)
  | .rom storage => (some (.romWriteForbidden address), .rom storage)
  | .inputDevice d => (none, .inputDevice (d.write address value))
  | .vectorGraphicsCoprocessor d => (none, .vectorGraphicsCoprocessor (d.write address value))

/-- `Region::Write` on the object itself. -/
def Region.writeInPlace (r : Region) (address : Word) (value : Byte) : Option SimError × Region :=
  if r.contains address then
    let (thrown, m) := r.module.writeInPlace (r.translate address) value
    (thrown, { r with module := m })
  else (some (.addressOutOfRegion address), r)

def writeRegionsInPlace (address : Word) (value : Byte) :
    List Region → Option SimError × List Region
  | [] => (some (.unmappedWrite address), [])
  | r :: rs =>
      if r.contains address then
        let (thrown, r') := r.writeInPlace address value
        (thrown, r' :: rs)
      else
        let (thrown, rs') := writeRegionsInPlace address value rs
        (thrown, r :: rs')

/-- A write with an exception as its result, and what the write in place does. -/
def leaves {α : Type} (old : α) : Except SimError α → Option SimError × α
  | .ok new => (none, new)
  | .error e => (some e, old)

theorem Module.writeInPlace_eq {size : Nat} (m : Module size) (address : Word) (value : Byte) :
    m.writeInPlace address value = leaves m (m.write address value) := by
  cases m with
  | ram cells =>
      by_cases h : address.toNat < size
      · simp only [Module.writeInPlace, Module.write, dif_pos h, leaves]
      · simp only [Module.writeInPlace, Module.write, dif_neg h, leaves]
  | rom | inputDevice | vectorGraphicsCoprocessor => rfl

theorem Region.writeInPlace_eq (r : Region) (address : Word) (value : Byte) :
    r.writeInPlace address value = leaves r (r.write address value) := by
  unfold Region.writeInPlace Region.write
  by_cases hc : r.contains address = true
  · rw [if_pos hc, if_pos hc, Module.writeInPlace_eq]
    cases r.module.write (r.translate address) value <;> rfl
  · rw [if_neg hc, if_neg hc]
    rfl

theorem writeRegionsInPlace_eq (address : Word) (value : Byte) (rs : List Region) :
    writeRegionsInPlace address value rs = leaves rs (writeRegions address value rs) := by
  induction rs with
  | nil => rfl
  | cons r rs ih =>
      unfold writeRegionsInPlace writeRegions
      by_cases hc : r.contains address = true
      · rw [if_pos hc, if_pos hc, Region.writeInPlace_eq]
        cases r.write address value <;> rfl
      · rw [if_neg hc, if_neg hc, ih]
        cases writeRegions address value rs <;> rfl

theorem windows_writeRegionsInPlace (address : Word) (value : Byte) (rs : List Region) :
    (writeRegionsInPlace address value rs).2.map Region.window = rs.map Region.window := by
  rw [writeRegionsInPlace_eq]
  cases h : writeRegions address value rs with
  | ok rs' => exact windows_writeRegions h
  | error e => rfl

/-- A stored byte outside a RAM lies in a ROM, and a write to it throws. -/
theorem Module.write_rom {size : Nat} {m : Module size} {address : Word} {v : Byte} (value : Byte)
    (hram : m.isRam = false) (hcell : m.cell address = some v) :
    ∃ e, m.write address value = .error e := by
  cases m with
  | ram cells => cases hram
  | rom storage => exact ⟨_, rfl⟩
  | inputDevice d => cases hcell
  | vectorGraphicsCoprocessor d => cases hcell

namespace Memory

/-- `Memory::WriteAt` on the object itself. -/
def writeInPlace (m : Memory) (address : Word) (value : Byte) : Option SimError × Memory :=
  ((writeRegionsInPlace address value m.regions).1,
    ⟨(writeRegionsInPlace address value m.regions).2, by
      rw [windows_writeRegionsInPlace]
      exact m.disjoint⟩)

theorem writeInPlace_eq (m : Memory) (address : Word) (value : Byte) :
    m.writeInPlace address value = leaves m (m.writeAt address value) := by
  have hregions := writeRegionsInPlace_eq address value m.regions
  cases h : m.writeAt address value with
  | ok m' =>
      rw [writeAt_eq_ok.mp h] at hregions
      have hthrown := congrArg Prod.fst hregions
      have hleft := congrArg Prod.snd hregions
      exact Prod.ext hthrown (Memory.ext hleft)
  | error e =>
      rw [writeAt_eq_error.mp h] at hregions
      have hthrown := congrArg Prod.fst hregions
      have hleft := congrArg Prod.snd hregions
      exact Prod.ext hthrown (Memory.ext hleft)

end Memory

/-! ## Building a memory -/

/-- A region factory for a RAM or a ROM, by the arguments of the constructors it calls. -/
inductive RegionFactory
  | ram (name : String) (offset : Word) (size : Nat) (fill : Byte)
  | rom (name : String) (offset : Word) (size : Nat) (fill : Byte)
  | romData (name : String) (offset : Word) (data : List Byte)
  deriving DecidableEq, Repr

namespace RegionFactory

def build : RegionFactory → Except SimError Region
  | .ram name offset size fill => do
      let module ← Module.newRam size fill
      Region.new name offset module
  | .rom name offset size fill => do
      let module ← Module.newRom size fill
      Region.new name offset module
  | .romData name offset data => do
      let module ← Module.newRomFromData data
      Region.new name offset module

def offset : RegionFactory → Word
  | .ram _ offset _ _ | .rom _ offset _ _ | .romData _ offset _ => offset

def size : RegionFactory → Nat
  | .ram _ _ size _ | .rom _ _ size _ => size
  | .romData _ _ data => data.length

def isRam : RegionFactory → Bool
  | .ram .. => true
  | _ => false

/-- The byte at an offset of the module, as built. -/
def content : RegionFactory → Nat → Byte
  | .ram _ _ _ fill, _ => fill
  | .rom _ _ _ fill, _ => fill
  | .romData _ _ data, index => data.getD index 0

/-- `Region::Contains` of the region built. -/
def contains (f : RegionFactory) (address : Word) : Bool :=
  match f.build with
  | .ok r => r.contains address
  | .error _ => false

end RegionFactory

/-- `Memory::Memory` on its region factories. -/
def Memory.build (factories : List RegionFactory) : Except SimError Memory := do
  let regions ← factories.mapM RegionFactory.build
  Memory.new regions

namespace RegionFactory

/-- What a factory builds: its own window, and its own bytes in it. -/
theorem build_spec {f : RegionFactory} {r : Region} (h : f.build = .ok r) :
    r.offset = f.offset ∧ r.size = f.size ∧ r.module.isRam = f.isRam ∧
      ∀ address : Word, address.toNat < r.size →
        r.module.cell address = some (f.content address.toNat) := by
  have hnew : ∀ {name : String} {offset : Word} {size : Nat} {module : Module size},
      Region.new name offset module = .ok r →
        ∃ hp ha, r = ⟨name, offset, size, module, hp, ha⟩ := by
    intro name offset size module h
    unfold Region.new at h
    split_ifs at h with hp ha
    cases h
    exact ⟨hp, ha, rfl⟩
  cases f with
  | ram name offset size fill =>
      rcases bind_eq_ok.mp h with ⟨module, hm, hr⟩
      obtain ⟨hp, ha, rfl⟩ := hnew hr
      unfold Module.newRam at hm
      split_ifs at hm
      cases hm
      exact ⟨rfl, rfl, rfl, fun address hlt => dif_pos hlt⟩
  | rom name offset size fill =>
      rcases bind_eq_ok.mp h with ⟨module, hm, hr⟩
      obtain ⟨hp, ha, rfl⟩ := hnew hr
      unfold Module.newRom at hm
      split_ifs at hm
      cases hm
      exact ⟨rfl, rfl, rfl, fun address hlt => dif_pos hlt⟩
  | romData name offset data =>
      rcases bind_eq_ok.mp h with ⟨module, hm, hr⟩
      obtain ⟨hp, ha, rfl⟩ := hnew hr
      unfold Module.newRomFromData at hm
      split_ifs at hm
      cases hm
      refine ⟨rfl, rfl, rfl, fun address hlt => (dif_pos hlt).trans ?_⟩
      -- the bytes of the vector, in order
      show some (data.get ⟨address.toNat, hlt⟩) = some (data.getD address.toNat 0)
      have hlt' : address.toNat < data.length := hlt
      rw [List.getD_eq_getElem?_getD, List.getElem?_eq_getElem hlt']
      rfl

theorem contains_of_build {f : RegionFactory} {r : Region} (h : f.build = .ok r) (a : Word) :
    f.contains a = r.contains a := by
  unfold contains
  rw [h]

end RegionFactory

/-- Below 2³² bytes a region's window is the interval from its offset on. -/
theorem Region.contains_iff {r : Region} (h : r.size < 2 ^ 32) (a : Word) :
    r.contains a = true ↔ r.offset.toNat ≤ a.toNat ∧ a.toNat < r.offset.toNat + r.size := by
  have hsum : r.upper = r.offset.toNat + r.size := by
    -- an aligned offset is a multiple of the size, so the end is at most twice the larger
    have hoffset := r.offset.isLt
    have haligned := r.aligned
    unfold Region.upper Region.lower
    rw [Nat.mod_eq_of_lt h]
    apply Nat.mod_eq_of_lt
    by_cases hzero : r.offset.toNat = 0
    · omega
    · have hle : r.size ≤ r.offset.toNat := by
        by_contra hgt
        rw [Nat.mod_eq_of_lt (by omega)] at haligned
        exact hzero haligned
      omega
  unfold Region.contains
  rw [Bool.and_eq_true, decide_eq_true_eq, decide_eq_true_eq, hsum]
  rfl

namespace Memory

variable {factories : List RegionFactory} {m : Memory}

/-- The regions of a memory are those its factories build, in order. -/
theorem regions_of_build (h : Memory.build factories = .ok m) :
    List.Forall₂ (fun f r => RegionFactory.build f = .ok r) factories m.regions := by
  rcases bind_eq_ok.mp h with ⟨regions, hregions, hnew⟩
  have hm : m.regions = regions := by
    unfold Memory.new at hnew
    split at hnew
    · cases hnew
    · cases hnew
      rfl
  rw [hm]
  exact forall₂_of_mapM_eq_ok hregions

/-- Two windows that share an address are not disjoint. -/
theorem not_disjoint_of_contains {r s : Region} {a : Word} (hr : r.contains a = true)
    (hs : s.contains a = true) : ¬windowsDisjoint r.window s.window := by
  unfold Region.contains at hr hs
  rw [Bool.and_eq_true, decide_eq_true_eq, decide_eq_true_eq] at hr hs
  intro h
  apply h
  show r.lower < s.upper ∧ s.lower < r.upper
  omega

theorem length_filter_contains_le (m : Memory) (a : Word) :
    (m.regions.filter (·.contains a)).length ≤ 1 := by
  have hd := m.disjoint
  generalize m.regions = rs at hd ⊢
  induction rs with
  | nil => exact Nat.zero_le _
  | cons r rs ih =>
      rw [List.map_cons, List.pairwise_cons] at hd
      by_cases hc : r.contains a = true
      · rw [List.filter_cons, if_pos hc]
        -- no later window holds the address as well
        have hnil : rs.filter (·.contains a) = [] := by
          apply List.filter_eq_nil_iff.mpr
          intro s hs hsc
          exact not_disjoint_of_contains hc hsc (hd.1 _ (List.mem_map_of_mem hs))
        rw [hnil]
        exact Nat.le_refl _
      · rw [List.filter_cons, if_neg hc]
        exact ih hd.2

/-- The region an address finds is the one that contains it. -/
theorem find?_of_contains {r : Region} {a : Word} (hr : r ∈ m.regions)
    (hc : r.contains a = true) : m.regions.find? (·.contains a) = some r := by
  have hle := m.length_filter_contains_le a
  have hmem : r ∈ m.regions.filter (·.contains a) := List.mem_filter.mpr ⟨hr, hc⟩
  rw [← List.head?_filter]
  cases hl : m.regions.filter (·.contains a) with
  | nil =>
      rw [hl] at hmem
      cases hmem
  | cons s rest =>
      rw [hl] at hmem hle
      have hrest : rest = [] := List.eq_nil_of_length_eq_zero (by
        rw [List.length_cons] at hle
        omega)
      rw [hrest] at hmem
      rw [List.mem_singleton.mp hmem]
      rfl

/-- A factory's addresses hold its content when the memory is new. -/
theorem cell_of_build (h : Memory.build factories = .ok m) {f : RegionFactory}
    (hf : f ∈ factories) {a : Word} (hc : f.contains a = true) :
    m.isRam a = f.isRam ∧ m.cell a = some (f.content (a.toNat - f.offset.toNat)) := by
  obtain ⟨r, hr, hbuild⟩ := exists_right_of_forall₂ (regions_of_build h) hf
  obtain ⟨hoffset, -, hram, hcell⟩ := RegionFactory.build_spec hbuild
  have hrc : r.contains a = true := (RegionFactory.contains_of_build hbuild a).symm.trans hc
  have hfind := find?_of_contains hr hrc
  unfold isRam cell
  rw [hfind]
  refine ⟨hram, ?_⟩
  show r.module.cell (r.translate a) = _
  rw [hcell _ (r.translate_lt a hrc), r.translate_toNat a hrc]
  show some (f.content (a.toNat - r.offset.toNat)) = _
  rw [hoffset]

end Memory

/-! ## Runs -/

inductive MemoryOp
  | readAt (address : Word)
  | writeAt (address : Word) (value : Byte)
  deriving DecidableEq, Repr

namespace Memory

/-- The memory after an operation, whether the operation throws or not. -/
def step (m : Memory) : MemoryOp → Memory
  | .readAt address => m.afterRead address
  | .writeAt address value => (m.writeInPlace address value).2

def run (m : Memory) (ops : List MemoryOp) : Memory := ops.foldl step m

/-- The value an operation stores at an address, or else the one stored before. -/
def noteWrite (address : Word) (last : Option Byte) : MemoryOp → Option Byte
  | .writeAt b value => if b = address then some value else last
  | .readAt _ => last

/-- The value of the last write to an address. -/
def lastWrite (address : Word) (ops : List MemoryOp) : Option Byte :=
  ops.foldl (noteWrite address) none

variable {m : Memory} {a : Word} {v : Byte}

/-- A write to a ROM throws. -/
theorem writeAt_of_rom (hram : m.isRam a = false) (hcell : m.cell a = some v) (value : Byte) :
    ∃ e, m.writeAt a value = .error e := by
  suffices hs : ∃ e, writeRegions a value m.regions = .error e by
    obtain ⟨e, he⟩ := hs
    exact ⟨e, writeAt_eq_error.mpr he⟩
  unfold isRam at hram
  unfold cell at hcell
  generalize m.regions = rs at hram hcell ⊢
  induction rs with
  | nil => cases hcell
  | cons r rs ih =>
      rw [List.find?_cons] at hram hcell
      unfold writeRegions
      by_cases hc : r.contains a = true
      · rw [hc] at hram hcell
        obtain ⟨e, he⟩ := Module.write_rom value hram hcell
        refine ⟨e, ?_⟩
        rw [if_pos hc]
        unfold Region.write
        rw [if_pos hc, he]
      · rw [Bool.not_eq_true] at hc
        rw [hc] at hram hcell ⊢
        obtain ⟨e, he⟩ := ih hram hcell
        refine ⟨e, ?_⟩
        rw [he]
        rfl

/-- A write in place that throws leaves the memory as it was. -/
theorem writeInPlace_of_error {e : SimError} (h : m.writeAt a v = .error e) :
    m.writeInPlace a v = (some e, m) := by
  rw [writeInPlace_eq, h]
  rfl

theorem writeInPlace_of_ok {m' : Memory} (h : m.writeAt a v = .ok m') :
    m.writeInPlace a v = (none, m') := by
  rw [writeInPlace_eq, h]
  rfl

theorem windows_step (m : Memory) (op : MemoryOp) :
    (m.step op).regions.map Region.window = m.regions.map Region.window := by
  cases op with
  | readAt address => exact windows_readRegions (m.readRegions_eq address)
  | writeAt address value => exact windows_writeRegionsInPlace address value m.regions

theorem isRam_step (m : Memory) (op : MemoryOp) (a : Word) :
    (m.step op).isRam a = m.isRam a := by
  cases op with
  | readAt address => exact m.isRam_afterRead address a
  | writeAt address value =>
      show (m.writeInPlace address value).2.isRam a = _
      cases h : m.writeAt address value with
      | ok m' =>
          rw [writeInPlace_of_ok h]
          exact isRam_writeAt h a
      | error e => rw [writeInPlace_of_error h]

/-- A RAM address holds what an operation stores there, and else what it held. -/
theorem cell_step_of_isRam {last : Option Byte} (op : MemoryOp) (hram : m.isRam a = true)
    (hcell : m.cell a = some (last.getD v)) :
    (m.step op).cell a = some ((noteWrite a last op).getD v) := by
  cases op with
  | readAt address => exact (m.cell_afterRead address a).trans hcell
  | writeAt address value =>
      show (m.writeInPlace address value).2.cell a =
        some ((if address = a then some value else last).getD v)
      by_cases heq : address = a
      · subst heq
        obtain ⟨m', hw, hstored⟩ := writeAt_of_isRam hram value
        rw [if_pos rfl, writeInPlace_of_ok hw]
        exact hstored
      · rw [if_neg heq]
        cases h : m.writeAt address value with
        | ok m' =>
            rw [writeInPlace_of_ok h]
            exact (cell_writeAt h (Ne.symm heq)).trans hcell
        | error e =>
            rw [writeInPlace_of_error h]
            exact hcell

/-- A ROM address keeps its content: a write to it throws, and another write is elsewhere. -/
theorem cell_step_of_rom (op : MemoryOp) (hram : m.isRam a = false) (hcell : m.cell a = some v) :
    (m.step op).cell a = some v := by
  cases op with
  | readAt address => exact (m.cell_afterRead address a).trans hcell
  | writeAt address value =>
      show (m.writeInPlace address value).2.cell a = some v
      cases h : m.writeAt address value with
      | error e =>
          rw [writeInPlace_of_error h]
          exact hcell
      | ok m' =>
          rw [writeInPlace_of_ok h]
          have hne : a ≠ address := by
            intro heq
            obtain ⟨e, he⟩ := writeAt_of_rom hram hcell value
            rw [heq, h] at he
            cases he
          exact (cell_writeAt h hne).trans hcell

theorem windows_run (m : Memory) (ops : List MemoryOp) :
    (m.run ops).regions.map Region.window = m.regions.map Region.window := by
  induction ops generalizing m with
  | nil => rfl
  | cons op ops ih => exact (ih (m.step op)).trans (m.windows_step op)

theorem isRam_run (m : Memory) (ops : List MemoryOp) (a : Word) :
    (m.run ops).isRam a = m.isRam a := by
  induction ops generalizing m with
  | nil => rfl
  | cons op ops ih => exact (ih (m.step op)).trans (m.isRam_step op a)

theorem cell_run_of_isRam {last : Option Byte} (ops : List MemoryOp) (hram : m.isRam a = true)
    (hcell : m.cell a = some (last.getD v)) :
    (m.run ops).cell a = some ((ops.foldl (noteWrite a) last).getD v) := by
  induction ops generalizing m last with
  | nil => exact hcell
  | cons op ops ih =>
      apply ih
      · rw [isRam_step]
        exact hram
      · exact cell_step_of_isRam op hram hcell

theorem cell_run_of_rom (ops : List MemoryOp) (hram : m.isRam a = false)
    (hcell : m.cell a = some v) : (m.run ops).cell a = some v := by
  induction ops generalizing m with
  | nil => exact hcell
  | cons op ops ih =>
      apply ih
      · rw [isRam_step]
        exact hram
      · exact cell_step_of_rom op hram hcell

/-- An address outside every window reads as `0xFF`. -/
theorem readAt_of_unmapped (h : ∀ r ∈ m.regions, r.contains a = false) :
    m.readAt a = .ok (0xFF, m) := by
  rw [readAt_eq_ok]
  generalize m.regions = rs at h ⊢
  induction rs with
  | nil => rfl
  | cons r rs ih =>
      unfold readRegions
      rw [h r List.mem_cons_self, ih fun s hs => h s (List.mem_cons_of_mem _ hs)]
      rfl

variable {factories : List RegionFactory}

/-- After any run the windows are still those the factories were given. -/
theorem contains_run (h : Memory.build factories = .ok m) (ops : List MemoryOp) (a : Word) :
    (m.run ops).regions.map (·.contains a) = factories.map (·.contains a) := by
  have hnew : m.regions.map (·.contains a) = factories.map (·.contains a) := by
    have hall := regions_of_build h
    generalize m.regions = rs at hall
    clear h
    induction hall with
    | nil => rfl
    | cons hbuild _ ih =>
        rw [List.map_cons, List.map_cons, ih, RegionFactory.contains_of_build hbuild]
  have hwindow : ∀ rs : List Region, rs.map (·.contains a) = (rs.map Region.window).map fun w =>
      decide (w.1 ≤ a.toNat) && decide (a.toNat < w.2) := by
    intro rs
    rw [List.map_map]
    rfl
  rw [hwindow, windows_run, ← hwindow, hnew]

end Memory

/-- The memory map is a store. -/
theorem memoryMap_isStore (factories : List RegionFactory) (m : Memory)
    (h : Memory.build factories = .ok m) (ops : List MemoryOp) (a : Word) :
    -- at most one region contains the address, and contains is the interval it should be
    factories.countP (·.contains a) ≤ 1 ∧
    (∀ f ∈ factories, f.size < 2 ^ 32 → (f.contains a = true ↔
      f.offset.toNat ≤ a.toNat ∧ a.toNat < f.offset.toNat + f.size)) ∧
    -- reads
    (∃ value, (m.run ops).readAt a = .ok (value, m.run ops)) ∧
    ((∀ f ∈ factories, f.contains a = false) → (m.run ops).readAt a = .ok (0xFF, m.run ops)) ∧
    (∀ f ∈ factories, f.contains a = true → f.isRam = true → (m.run ops).readAt a =
      .ok ((Memory.lastWrite a ops).getD (f.content (a.toNat - f.offset.toNat)), m.run ops)) ∧
    (∀ f ∈ factories, f.contains a = true → f.isRam = false → (m.run ops).readAt a =
      .ok (f.content (a.toNat - f.offset.toNat), m.run ops)) ∧
    -- writes
    (∀ value e m', (m.run ops).writeInPlace a value = (some e, m') →
      m' = m.run ops ∧ ∀ f ∈ factories, f.contains a = true → f.isRam = false) := by
  have hcontains := Memory.contains_run h ops a
  have hcount : factories.countP (·.contains a) ≤ 1 := by
    have hle := (m.run ops).length_filter_contains_le a
    have hlen : ∀ bs : List Bool, (bs.filter id).length = bs.countP id := fun bs =>
      List.countP_eq_length_filter.symm
    -- the regions answer as the factories do, in the same order
    have hmap : ∀ {α : Type} (p : α → Bool) (l : List α),
        l.countP p = (l.map p).countP id := by
      intro α p l
      rw [List.countP_map]
      rfl
    rw [← List.countP_eq_length_filter, hmap, hcontains, ← hmap] at hle
    exact hle
  have hunmapped : (∀ f ∈ factories, f.contains a = false) →
      (m.run ops).readAt a = .ok (0xFF, m.run ops) := by
    intro hno
    apply Memory.readAt_of_unmapped
    intro r hr
    have hmem : r.contains a ∈ factories.map (·.contains a) :=
      hcontains ▸ List.mem_map_of_mem hr
    obtain ⟨f, hf, heq⟩ := List.mem_map.mp hmem
    exact heq.symm.trans (hno f hf)
  have hramRead : ∀ f ∈ factories, f.contains a = true → f.isRam = true →
      (m.run ops).readAt a =
        .ok ((Memory.lastWrite a ops).getD (f.content (a.toNat - f.offset.toNat)), m.run ops) := by
    intro f hf hc hk
    obtain ⟨hram, hcell⟩ := Memory.cell_of_build h hf hc
    exact Memory.readAt_of_cell (@Memory.cell_run_of_isRam m a _ none ops (hram.trans hk) hcell)
  have hromRead : ∀ f ∈ factories, f.contains a = true → f.isRam = false →
      (m.run ops).readAt a = .ok (f.content (a.toNat - f.offset.toNat), m.run ops) := by
    intro f hf hc hk
    obtain ⟨hram, hcell⟩ := Memory.cell_of_build h hf hc
    exact Memory.readAt_of_cell (Memory.cell_run_of_rom ops (hram.trans hk) hcell)
  refine ⟨hcount, ?_, ?_, hunmapped, hramRead, hromRead, ?_⟩
  · intro f hf hsize
    obtain ⟨r, -, hbuild⟩ := exists_right_of_forall₂ (Memory.regions_of_build h) hf
    obtain ⟨hoffset, hsame, -, -⟩ := RegionFactory.build_spec hbuild
    rw [RegionFactory.contains_of_build hbuild, Region.contains_iff (hsame ▸ hsize), hoffset,
      hsame]
  · -- a read of any address is one of the three
    by_cases hno : ∀ f ∈ factories, f.contains a = false
    · exact ⟨_, hunmapped hno⟩
    · have hsome : ∃ f ∈ factories, f.contains a = true := by
        by_contra hnone
        apply hno
        intro f hf
        by_contra hne
        exact hnone ⟨f, hf, Bool.eq_true_of_not_eq_false hne⟩
      obtain ⟨f, hf, hc⟩ := hsome
      cases hk : f.isRam with
      | true => exact ⟨_, hramRead f hf hc hk⟩
      | false => exact ⟨_, hromRead f hf hc hk⟩
  · intro value e m' hw
    cases hres : (m.run ops).writeAt a value with
    | ok m'' =>
        rw [Memory.writeInPlace_of_ok hres] at hw
        cases hw
    | error e' =>
        rw [Memory.writeInPlace_of_error hres] at hw
        cases hw
        refine ⟨rfl, ?_⟩
        intro f hf hc
        -- at a RAM address the write would have succeeded
        by_contra hk
        obtain ⟨hram, -⟩ := Memory.cell_of_build h hf hc
        have hrun : (m.run ops).isRam a = true := by
          rw [Memory.isRam_run, hram]
          exact Bool.eq_true_of_not_eq_false hk
        obtain ⟨m'', hok, -⟩ := Memory.writeAt_of_isRam hrun value
        rw [hres] at hok
        cases hok

/-- Two pages, the upper one up to the top of the address space. -/
def twoPages : List RegionFactory :=
  [.rom "rom" 0xFF00 0x100 0x60, .ram "ram" 0x0000 0x100 0x00]

def storeTwice : List MemoryOp :=
  [.writeAt 0x0010 0x2A, .writeAt 0xFFFF 0x2B, .writeAt 0x8000 0x2C, .readAt 0x0010]

/-- The write to the ROM and the one to an unmapped address leave the RAM's byte. -/
theorem memoryMap_isStore_twoPages : ∃ m, Memory.build twoPages = .ok m ∧
    (m.run storeTwice).readAt 0x0010 = .ok (0x2A, m.run storeTwice) ∧
    (m.run storeTwice).readAt 0xFFFF = .ok (0x60, m.run storeTwice) := by
  cases h : Memory.build twoPages with
  | error e =>
      have hok : (Memory.build twoPages).toBool = true := by decide +kernel
      rw [h] at hok
      cases hok
  | ok m =>
      obtain ⟨-, -, -, -, hram, -⟩ := memoryMap_isStore twoPages m h storeTwice 0x0010
      obtain ⟨-, -, -, -, -, hrom, -⟩ := memoryMap_isStore twoPages m h storeTwice 0xFFFF
      refine ⟨m, rfl, ?_, ?_⟩
      · exact hram (.ram "ram" 0x0000 0x100 0x00) (by decide) (by decide +kernel) rfl
      · exact hrom (.rom "rom" 0xFF00 0x100 0x60) (by decide) (by decide +kernel) rfl

end Irata2.Sim
