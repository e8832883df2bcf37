import Irata2.Sim.Error
import Irata2.Sim.Io

/-!
# Memory regions

The address space is a list of regions, each mapping one module at an aligned offset.  A module is
indexed by its size, so reading or writing it cannot change how large it is, and a region carries
the two checks of its constructor.  Reads return the module as well, because the input device pops
its queue when its data register is read.
-/

namespace Irata2.Sim

open Hdl

/-! ## Modules -/

/-- The modules that can be mapped into memory, by size in bytes. -/
inductive Module : Nat → Type
  | ram {size : Nat} (cells : Fin size → Byte) : Module size
  | rom {size : Nat} (storage : Fin size → Byte) : Module size
  | inputDevice (device : InputDevice) : Module mmioSize
  | vectorGraphicsCoprocessor (device : VectorGraphicsCoprocessor) : Module mmioSize

namespace Module

def newRam (size : Nat) (fill : Byte) : Except SimError (Module size) :=
  if size = 0 then .error .moduleSizeZero else .ok (.ram fun _ => fill)

def newRom (size : Nat) (fill : Byte) : Except SimError (Module size) :=
  if size = 0 then .error .moduleSizeZero else .ok (.rom fun _ => fill)

def newRomFromData (data : List Byte) : Except SimError (Module data.length) :=
  if data.length = 0 then .error .moduleSizeZero else .ok (.rom data.get)

def read {size : Nat} (path : String) (m : Module size) (address : Word) :
    Except SimError (Byte × Module size) :=
  match m with
  | .ram cells =>
      if h : address.toNat < size then .ok (cells ⟨address.toNat, h⟩, .ram cells)
      else .error (.ramReadOutOfRange address)
  | .rom storage =>
      if h : address.toNat < size then .ok (storage ⟨address.toNat, h⟩, .rom storage)
      else .error (.romReadOutOfBounds (path ++ ".storage") address.toNat size)
  | .inputDevice d => .ok ((d.read address).1, .inputDevice (d.read address).2)
  | .vectorGraphicsCoprocessor d => .ok (d.read address, .vectorGraphicsCoprocessor d)

def write {size : Nat} (m : Module size) (address : Word) (value : Byte) :
    Except SimError (Module size) :=
  match m with
  | .ram cells =>
      if h : address.toNat < size then
        .ok (.ram (Function.update cells ⟨address.toNat, h⟩ value))
      else .error (.ramWriteOutOfRange address)
  | .rom _ => .error (.romWriteForbidden address)
  | .inputDevice d => .ok (.inputDevice (d.write address value))
  | .vectorGraphicsCoprocessor d => .ok (.vectorGraphicsCoprocessor (d.write address value))

/-- The level `TickControl` drives onto the interrupt line, for the modules that drive it. -/
def irqLevel {size : Nat} : Module size → Option Bool
  | .inputDevice d => some d.irqPending
  | _ => none

/-- The module after the host has acted on it; only the input device listens. -/
def host {size : Nat} (m : Module size) (i : HostInput) : Module size :=
  match m with
  | .inputDevice d => .inputDevice (d.host i)
  | .ram cells => .ram cells
  | .rom storage => .rom storage
  | .vectorGraphicsCoprocessor d => .vectorGraphicsCoprocessor d

/-- The byte stored at an offset of a RAM or a ROM. -/
def cell {size : Nat} (m : Module size) (address : Word) : Option Byte :=
  match m with
  | .ram cells => if h : address.toNat < size then some (cells ⟨address.toNat, h⟩) else none
  | .rom storage => if h : address.toNat < size then some (storage ⟨address.toNat, h⟩) else none
  | _ => none

def isRam {size : Nat} : Module size → Bool
  | .ram _ => true
  | _ => false

theorem read_ok {size : Nat} (path : String) (m : Module size) (address : Word)
    (h : address.toNat < size) : ∃ r, m.read path address = .ok r := by
  cases m with
  | ram cells => exact ⟨_, dif_pos h⟩
  | rom storage => exact ⟨_, dif_pos h⟩
  | inputDevice d => exact ⟨_, rfl⟩
  | vectorGraphicsCoprocessor d => exact ⟨_, rfl⟩

/-- A read keeps the stored bytes, and a RAM stays one. -/
theorem keeps_read {size : Nat} {path : String} {m m' : Module size} {address : Word} {v : Byte}
    (h : m.read path address = .ok (v, m')) : m'.isRam = m.isRam ∧ m'.cell = m.cell := by
  cases m with
  | ram cells =>
      by_cases hlt : address.toNat < size
      · simp only [read, dif_pos hlt] at h
        cases h; exact ⟨rfl, rfl⟩
      · simp only [read, dif_neg hlt] at h
        cases h
  | rom storage =>
      by_cases hlt : address.toNat < size
      · simp only [read, dif_pos hlt] at h
        cases h; exact ⟨rfl, rfl⟩
      · simp only [read, dif_neg hlt] at h
        cases h
  | inputDevice d => cases h; exact ⟨rfl, rfl⟩
  | vectorGraphicsCoprocessor d => cases h; exact ⟨rfl, rfl⟩

/-- Reading a stored byte returns it and leaves the module as it was. -/
theorem read_of_cell {size : Nat} {path : String} {m : Module size} {address : Word} {v : Byte}
    (h : m.cell address = some v) : m.read path address = .ok (v, m) := by
  cases m with
  | ram cells =>
      by_cases hlt : address.toNat < size
      · simp only [cell, dif_pos hlt] at h
        simp only [read, dif_pos hlt]
        cases h; rfl
      · simp only [cell, dif_neg hlt] at h
        cases h
  | rom storage =>
      by_cases hlt : address.toNat < size
      · simp only [cell, dif_pos hlt] at h
        simp only [read, dif_pos hlt]
        cases h; rfl
      · simp only [cell, dif_neg hlt] at h
        cases h
  | inputDevice d => cases h
  | vectorGraphicsCoprocessor d => cases h

/-- A store to RAM succeeds and is read back. -/
theorem write_ram {size : Nat} {m : Module size} {address : Word} (v : Byte)
    (hr : m.isRam = true) (hlt : address.toNat < size) :
    ∃ m', m.write address v = .ok m' ∧ m'.cell address = some v := by
  cases m with
  | ram cells =>
      refine ⟨.ram (Function.update cells ⟨address.toNat, hlt⟩ v), dif_pos hlt, ?_⟩
      simp only [cell, dif_pos hlt, Function.update_self]
  | rom storage => cases hr
  | inputDevice d => cases hr
  | vectorGraphicsCoprocessor d => cases hr

theorem cell_of_isRam {size : Nat} {m : Module size} {address : Word} (hr : m.isRam = true)
    (hlt : address.toNat < size) : ∃ v, m.cell address = some v := by
  cases m with
  | ram cells => exact ⟨_, dif_pos hlt⟩
  | rom storage => cases hr
  | inputDevice d => cases hr
  | vectorGraphicsCoprocessor d => cases hr

theorem isRam_write {size : Nat} {m m' : Module size} {address : Word} {v : Byte}
    (h : m.write address v = .ok m') : m'.isRam = m.isRam := by
  cases m with
  | ram cells =>
      by_cases hlt : address.toNat < size
      · simp only [write, dif_pos hlt] at h
        cases h; rfl
      · simp only [write, dif_neg hlt] at h
        cases h
  | rom storage => cases h
  | inputDevice d => cases h; rfl
  | vectorGraphicsCoprocessor d => cases h; rfl

/-- Inside the module only a store to a ROM fails. -/
theorem write_error {size : Nat} {m : Module size} {address : Word} {v : Byte} {e : SimError}
    (hlt : address.toNat < size) (h : m.write address v = .error e) : e.IsMemoryWrite := by
  cases m with
  | ram cells =>
      simp only [write, dif_pos hlt] at h
      cases h
  | rom storage => cases h; trivial
  | inputDevice d => cases h
  | vectorGraphicsCoprocessor d => cases h

/-- A write changes no stored byte but the one it addresses. -/
theorem cell_write {size : Nat} {m m' : Module size} {address : Word} {v : Byte}
    (h : m.write address v = .ok m') (b : Word) (hb : b ≠ address) : m'.cell b = m.cell b := by
  cases m with
  | ram cells =>
      by_cases hlt : address.toNat < size
      · simp only [write, dif_pos hlt] at h
        cases h
        by_cases hbs : b.toNat < size
        · simp only [cell, dif_pos hbs]
          rw [Function.update_of_ne]
          intro heq
          exact hb (BitVec.eq_of_toNat_eq (Fin.mk.inj heq))
        · simp only [cell, dif_neg hbs]
      · simp only [write, dif_neg hlt] at h
        cases h
  | rom storage => cases h
  | inputDevice d => cases h; rfl
  | vectorGraphicsCoprocessor d => cases h; rfl

end Module

/-! ## Regions -/

def isPowerOfTwo (value : Nat) : Bool := value != 0 && value &&& (value - 1) == 0

/-- A module mapped at an offset, with the alignment the constructor checks. -/
structure Region where
  name : String
  offset : Word
  size : Nat
  module : Module size
  powerOfTwo : isPowerOfTwo size = true
  aligned : offset.toNat % size = 0

theorem isPowerOfTwo_ram : isPowerOfTwo 0x2000 = true := by decide

theorem aligned_ram : (0x0000 : Word).toNat % 0x2000 = 0 := by decide

theorem isPowerOfTwo_cartridge : isPowerOfTwo 0x8000 = true := by decide

theorem aligned_cartridge : (0x8000 : Word).toNat % 0x8000 = 0 := by decide

theorem isPowerOfTwo_mmio : isPowerOfTwo mmioSize = true := by decide

namespace Region

def new (name : String) (offset : Word) {size : Nat} (module : Module size) :
    Except SimError Region :=
  if hp : isPowerOfTwo size = true then
    if ha : offset.toNat % size = 0 then .ok ⟨name, offset, size, module, hp, ha⟩
    else .error (.regionOffsetNotAligned offset)
  else .error (.regionSizeNotPowerOfTwo size)

/-- The component path, below the memory's. -/
def path (r : Region) : String := "memory." ++ r.name

def lower (r : Region) : Nat := r.offset.toNat

/-- The end of the window, in the 32-bit arithmetic of the source. -/
def upper (r : Region) : Nat := (r.lower + r.size % 2 ^ 32) % 2 ^ 32

def contains (r : Region) (address : Word) : Bool :=
  decide (r.lower ≤ address.toNat) && decide (address.toNat < r.upper)

def overlaps (r s : Region) : Bool :=
  decide (r.lower < s.upper) && decide (s.lower < r.upper)

def translate (r : Region) (address : Word) : Word := address - r.offset

def read (r : Region) (address : Word) : Except SimError (Byte × Region) :=
  if r.contains address then
    match r.module.read r.path (r.translate address) with
    | .ok (value, m) => .ok (value, { r with module := m })
    | .error e => .error e
  else .error (.addressOutOfRegion address)

def write (r : Region) (address : Word) (value : Byte) : Except SimError Region :=
  if r.contains address then
    match r.module.write (r.translate address) value with
    | .ok m => .ok { r with module := m }
    | .error e => .error e
  else .error (.addressOutOfRegion address)

def host (r : Region) (i : HostInput) : Region := { r with module := r.module.host i }

/-- What overlap is decided on. -/
def window (r : Region) : Nat × Nat := (r.lower, r.upper)

theorem upper_le (r : Region) : r.upper ≤ r.lower + r.size := by
  unfold upper
  omega

theorem translate_toNat (r : Region) (address : Word) (h : r.contains address = true) :
    (r.translate address).toNat = address.toNat - r.lower := by
  unfold contains at h
  rw [Bool.and_eq_true, decide_eq_true_eq, decide_eq_true_eq] at h
  have h1 := h.1
  unfold translate
  unfold lower at h1 ⊢
  rw [BitVec.toNat_sub_of_le h1]

theorem translate_lt (r : Region) (address : Word) (h : r.contains address = true) :
    (r.translate address).toNat < r.size := by
  rw [translate_toNat r address h]
  unfold contains at h
  rw [Bool.and_eq_true, decide_eq_true_eq, decide_eq_true_eq] at h
  have hu := r.upper_le
  omega

theorem translate_injective (r : Region) : Function.Injective r.translate := by
  intro a b h
  unfold translate at h
  exact sub_left_injective h

theorem read_ok (r : Region) (address : Word) (h : r.contains address = true) :
    ∃ v, r.read address = .ok v := by
  obtain ⟨v, hv⟩ := r.module.read_ok r.path _ (r.translate_lt address h)
  refine ⟨(v.1, { r with module := v.2 }), ?_⟩
  unfold read
  rw [if_pos h, hv]

theorem read_eq {r r' : Region} {address : Word} {v : Byte} (h : r.read address = .ok (v, r')) :
    ∃ m, r.module.read r.path (r.translate address) = .ok (v, m) ∧ r' = { r with module := m } := by
  unfold read at h
  split at h
  · split at h
    · rename_i value m hm
      cases h
      exact ⟨m, hm, rfl⟩
    · cases h
  · cases h

theorem write_eq {r r' : Region} {address : Word} {v : Byte} (h : r.write address v = .ok r') :
    ∃ m, r.module.write (r.translate address) v = .ok m ∧ r' = { r with module := m } := by
  unfold write at h
  split at h
  · split at h
    · rename_i m hm
      cases h
      exact ⟨m, hm, rfl⟩
    · cases h
  · cases h

/-- What a region shows at one address: whether it answers, and the byte it stores there. -/
structure SameAt (b : Word) (r r' : Region) : Prop where
  window : r'.window = r.window
  isRam : r'.module.isRam = r.module.isRam
  cell : r'.module.cell (r'.translate b) = r.module.cell (r.translate b)

theorem SameAt.refl (b : Word) (r : Region) : SameAt b r r := ⟨rfl, rfl, rfl⟩

theorem sameAt_host (r : Region) (i : HostInput) (b : Word) : SameAt b r (r.host i) := by
  unfold host
  rcases r with ⟨name, offset, size, module, powerOfTwo, aligned⟩
  cases module <;> exact ⟨rfl, rfl, rfl⟩

theorem sameAt_read {r r' : Region} {address : Word} {v : Byte} (b : Word)
    (h : r.read address = .ok (v, r')) : SameAt b r r' := by
  obtain ⟨m, hm, rfl⟩ := read_eq h
  obtain ⟨hram, hcell⟩ := Module.keeps_read hm
  exact ⟨rfl, hram, congrFun hcell _⟩

theorem sameAt_write {r r' : Region} {address : Word} {v : Byte} {b : Word} (hb : b ≠ address)
    (h : r.write address v = .ok r') : SameAt b r r' := by
  obtain ⟨m, hm, rfl⟩ := write_eq h
  refine ⟨rfl, Module.isRam_write hm, Module.cell_write hm _ ?_⟩
  intro heq
  exact hb (r.translate_injective heq)

theorem sameKind_write {r r' : Region} {address : Word} {v : Byte}
    (h : r.write address v = .ok r') :
    r'.window = r.window ∧ r'.module.isRam = r.module.isRam := by
  obtain ⟨m, hm, rfl⟩ := write_eq h
  exact ⟨rfl, Module.isRam_write hm⟩

theorem contains_of_window {r r' : Region} (h : r'.window = r.window) (b : Word) :
    r'.contains b = r.contains b := by
  unfold window at h
  unfold contains
  rw [(Prod.mk.inj h).1, (Prod.mk.inj h).2]

end Region

def windowsDisjoint (v w : Nat × Nat) : Prop := ¬(v.1 < w.2 ∧ w.1 < v.2)

/-! ## The region list -/

/-- `FindRegion` followed by `Region::Read`: the first region that contains the address answers,
and an address without a region reads as `0xFF`. -/
def readRegions (address : Word) : List Region → Except SimError (Byte × List Region)
  | [] => .ok (0xFF, [])
  | r :: rs =>
      if r.contains address then
        match r.read address with
        | .ok (value, r') => .ok (value, r' :: rs)
        | .error e => .error e
      else
        match readRegions address rs with
        | .ok (value, rs') => .ok (value, r :: rs')
        | .error e => .error e

/-- `FindRegion` followed by `Region::Write`. -/
def writeRegions (address : Word) (value : Byte) : List Region → Except SimError (List Region)
  | [] => .error (.unmappedWrite address)
  | r :: rs =>
      if r.contains address then
        match r.write address value with
        | .ok r' => .ok (r' :: rs)
        | .error e => .error e
      else
        match writeRegions address value rs with
        | .ok rs' => .ok (r :: rs')
        | .error e => .error e

theorem readRegions_ok (address : Word) (rs : List Region) :
    ∃ v, readRegions address rs = .ok v := by
  induction rs with
  | nil => exact ⟨_, rfl⟩
  | cons r rs ih =>
      unfold readRegions
      split
      · rename_i hc
        obtain ⟨v, hv⟩ := r.read_ok address hc
        rw [hv]
        exact ⟨_, rfl⟩
      · obtain ⟨v, hv⟩ := ih
        rw [hv]
        exact ⟨_, rfl⟩

/-- A read hands the address to one region and keeps every other one. -/
theorem readRegions_cons {address : Word} {r : Region} {rs rs' : List Region} {v : Byte}
    (h : readRegions address (r :: rs) = .ok (v, rs')) :
    (r.contains address = true ∧ ∃ r', r.read address = .ok (v, r') ∧ rs' = r' :: rs) ∨
      (r.contains address = false ∧
        ∃ rs'', readRegions address rs = .ok (v, rs'') ∧ rs' = r :: rs'') := by
  unfold readRegions at h
  split at h
  · rename_i hc
    split at h
    · rename_i value r' hr
      cases h
      exact .inl ⟨hc, r', hr, rfl⟩
    · cases h
  · rename_i hc
    split at h
    · rename_i value rs'' hr
      cases h
      exact .inr ⟨by simpa using hc, rs'', hr, rfl⟩
    · cases h

theorem writeRegions_cons {address : Word} {value : Byte} {r : Region} {rs rs' : List Region}
    (h : writeRegions address value (r :: rs) = .ok rs') :
    (r.contains address = true ∧ ∃ r', r.write address value = .ok r' ∧ rs' = r' :: rs) ∨
      (r.contains address = false ∧
        ∃ rs'', writeRegions address value rs = .ok rs'' ∧ rs' = r :: rs'') := by
  unfold writeRegions at h
  split at h
  · rename_i hc
    split at h
    · rename_i r' hr
      cases h
      exact .inl ⟨hc, r', hr, rfl⟩
    · cases h
  · rename_i hc
    split at h
    · rename_i rs'' hr
      cases h
      exact .inr ⟨by simpa using hc, rs'', hr, rfl⟩
    · cases h

theorem forall₂_readRegions {R : Region → Region → Prop} (hrefl : ∀ r, R r r)
    {address : Word} (hread : ∀ r r' v, r.read address = .ok (v, r') → R r r')
    {rs rs' : List Region} {v : Byte} (h : readRegions address rs = .ok (v, rs')) :
    List.Forall₂ R rs rs' := by
  induction rs generalizing rs' with
  | nil => cases h; exact List.Forall₂.nil
  | cons r rs ih =>
      rcases readRegions_cons h with ⟨-, r', hr, rfl⟩ | ⟨-, rs'', hr, rfl⟩
      · exact List.Forall₂.cons (hread r r' v hr) (List.forall₂_same.mpr fun s _ => hrefl s)
      · exact List.Forall₂.cons (hrefl r) (ih hr)

theorem forall₂_writeRegions {R : Region → Region → Prop} (hrefl : ∀ r, R r r)
    {address : Word} {value : Byte} (hwrite : ∀ r r', r.write address value = .ok r' → R r r')
    {rs rs' : List Region} (h : writeRegions address value rs = .ok rs') :
    List.Forall₂ R rs rs' := by
  induction rs generalizing rs' with
  | nil => cases h
  | cons r rs ih =>
      rcases writeRegions_cons h with ⟨-, r', hr, rfl⟩ | ⟨-, rs'', hr, rfl⟩
      · exact List.Forall₂.cons (hwrite r r' hr) (List.forall₂_same.mpr fun s _ => hrefl s)
      · exact List.Forall₂.cons (hrefl r) (ih hr)

theorem map_window_of_forall₂ {rs rs' : List Region}
    (h : List.Forall₂ (fun r r' => r'.window = r.window) rs rs') :
    rs'.map Region.window = rs.map Region.window := by
  induction h with
  | nil => rfl
  | cons hw _ ih => rw [List.map_cons, List.map_cons, hw, ih]

theorem windows_readRegions {address : Word} {rs rs' : List Region} {v : Byte}
    (h : readRegions address rs = .ok (v, rs')) :
    rs'.map Region.window = rs.map Region.window := by
  have hw : List.Forall₂ (fun r r' : Region => r'.window = r.window) rs rs' :=
    forall₂_readRegions (fun r => Eq.refl r.window)
      (fun r _ _ hr => (r.sameAt_read 0 hr).window) h
  exact map_window_of_forall₂ hw

theorem windows_writeRegions {address : Word} {value : Byte} {rs rs' : List Region}
    (h : writeRegions address value rs = .ok rs') :
    rs'.map Region.window = rs.map Region.window := by
  have hw : List.Forall₂ (fun r r' : Region => r'.window = r.window) rs rs' :=
    forall₂_writeRegions (fun r => Eq.refl r.window) (fun r _ hr => (r.sameKind_write hr).1) h
  exact map_window_of_forall₂ hw

theorem forall₂_modify {R : Region → Region → Prop} (hrefl : ∀ r, R r r) {f : Region → Region}
    (hf : ∀ r, R r (f r)) (rs : List Region) (index : Nat) :
    List.Forall₂ R rs (rs.modify index f) := by
  induction rs generalizing index with
  | nil =>
      rw [List.modify_nil]
      exact List.Forall₂.nil
  | cons r rs ih =>
      cases index with
      | zero => exact List.Forall₂.cons (hf r) (List.forall₂_same.mpr fun s _ => hrefl s)
      | succ index => exact List.Forall₂.cons (hrefl r) (ih index)

theorem windows_modify_host (rs : List Region) (index : Nat) (i : HostInput) :
    (rs.modify index fun r => r.host i).map Region.window = rs.map Region.window := by
  have hw : List.Forall₂ (fun r r' : Region => r'.window = r.window) rs
      (rs.modify index fun r => r.host i) :=
    forall₂_modify (fun r => Eq.refl r.window) (fun r => (r.sameAt_host i 0).window) rs index
  exact map_window_of_forall₂ hw

/-- Related region lists pick related regions for an address. -/
theorem find?_rel {R : Region → Region → Prop} (hw : ∀ r r', R r r' → r'.window = r.window)
    (b : Word) {rs rs' : List Region} (h : List.Forall₂ R rs rs') :
    Option.Rel R (rs.find? (·.contains b)) (rs'.find? (·.contains b)) := by
  induction h with
  | nil => exact Option.Rel.none
  | @cons r r' rs rs' hs _ ih =>
      rw [List.find?_cons, List.find?_cons, Region.contains_of_window (hw r r' hs)]
      cases r.contains b with
      | true => exact Option.Rel.some hs
      | false => exact ih

/-- The first pair of regions that overlap, in the order of the constructor's two loops. -/
def firstOverlap : List Region → Option (Region × Region)
  | [] => none
  | r :: rs =>
      match rs.find? r.overlaps with
      | some s => some (r, s)
      | none => firstOverlap rs

theorem disjoint_of_firstOverlap {rs : List Region} (h : firstOverlap rs = none) :
    (rs.map Region.window).Pairwise windowsDisjoint := by
  induction rs with
  | nil => exact List.Pairwise.nil
  | cons r rs ih =>
      unfold firstOverlap at h
      split at h
      · cases h
      · rename_i hf
        rw [List.map_cons, List.pairwise_cons]
        refine ⟨?_, ih h⟩
        intro w hw
        obtain ⟨s, hs, rfl⟩ := List.mem_map.mp hw
        have hno := List.find?_eq_none.mp hf s hs
        unfold Region.overlaps at hno
        rw [Bool.and_eq_true, decide_eq_true_eq, decide_eq_true_eq] at hno
        exact hno

/-- The memory: regions whose windows are pairwise disjoint. -/
@[ext]
structure Memory where
  regions : List Region
  disjoint : (regions.map Region.window).Pairwise windowsDisjoint

namespace Memory

def new (regions : List Region) : Except SimError Memory :=
  match h : firstOverlap regions with
  | some (r, s) => .error (.regionsOverlap r.path s.path)
  | none => .ok ⟨regions, disjoint_of_firstOverlap h⟩

def readAt (m : Memory) (address : Word) : Except SimError (Byte × Memory) :=
  match h : readRegions address m.regions with
  | .ok (value, rs) => .ok (value, ⟨rs, by rw [windows_readRegions h]; exact m.disjoint⟩)
  | .error e => .error e

def writeAt (m : Memory) (address : Word) (value : Byte) : Except SimError Memory :=
  match h : writeRegions address value m.regions with
  | .ok rs => .ok ⟨rs, by rw [windows_writeRegions h]; exact m.disjoint⟩
  | .error e => .error e

/-- The memory after the host has acted on the region with the given index. -/
def host (m : Memory) (index : Nat) (i : HostInput) : Memory :=
  ⟨m.regions.modify index fun r => r.host i, by
    rw [windows_modify_host]
    exact m.disjoint⟩

/-- The byte a read of the address returns. -/
def byteAt (m : Memory) (address : Word) : Byte :=
  match m.readAt address with
  | .ok (value, _) => value
  | .error _ => 0xFF

/-- The memory after a read of the address. -/
def afterRead (m : Memory) (address : Word) : Memory :=
  match m.readAt address with
  | .ok (_, m') => m'
  | .error _ => m

/-- The levels the modules drive onto the interrupt line in one Control phase, in order. -/
def irqLevels (m : Memory) : List Bool := m.regions.filterMap fun r => r.module.irqLevel

/-- The byte stored in RAM or ROM at an address; `none` for devices and unmapped addresses. -/
def cell (m : Memory) (address : Word) : Option Byte :=
  match m.regions.find? (·.contains address) with
  | some r => r.module.cell (r.translate address)
  | none => none

/-- Whether a RAM answers at an address. -/
def isRam (m : Memory) (address : Word) : Bool :=
  match m.regions.find? (·.contains address) with
  | some r => r.module.isRam
  | none => false

theorem readAt_eq_ok {m m' : Memory} {address : Word} {v : Byte} :
    m.readAt address = .ok (v, m') ↔ readRegions address m.regions = .ok (v, m'.regions) := by
  unfold readAt
  split
  · rename_i value rs h
    constructor
    · intro heq
      cases heq
      exact h
    · intro heq
      cases h.symm.trans heq
      rfl
  · rename_i e h
    constructor
    · intro heq
      cases heq
    · intro heq
      cases h.symm.trans heq

theorem writeAt_eq_ok {m m' : Memory} {address : Word} {v : Byte} :
    m.writeAt address v = .ok m' ↔ writeRegions address v m.regions = .ok m'.regions := by
  unfold writeAt
  split
  · rename_i rs h
    constructor
    · intro heq
      cases heq
      exact h
    · intro heq
      cases h.symm.trans heq
      rfl
  · rename_i e h
    constructor
    · intro heq
      cases heq
    · intro heq
      cases h.symm.trans heq

theorem writeAt_eq_error {m : Memory} {address : Word} {v : Byte} {e : SimError} :
    m.writeAt address v = .error e ↔ writeRegions address v m.regions = .error e := by
  unfold writeAt
  split
  · rename_i rs h
    constructor
    · intro heq
      cases heq
    · intro heq
      cases h.symm.trans heq
  · rename_i e' h
    rw [h]
    constructor <;> (intro heq; cases heq; rfl)

/-- Reading never fails. -/
theorem readAt_eq (m : Memory) (address : Word) :
    m.readAt address = .ok (m.byteAt address, m.afterRead address) := by
  obtain ⟨⟨v, rs⟩, h⟩ := readRegions_ok address m.regions
  have hr : m.readAt address =
      .ok (v, ⟨rs, by rw [windows_readRegions h]; exact m.disjoint⟩) := readAt_eq_ok.mpr h
  unfold byteAt afterRead
  rw [hr]

theorem readRegions_eq (m : Memory) (address : Word) :
    readRegions address m.regions = .ok (m.byteAt address, (m.afterRead address).regions) :=
  readAt_eq_ok.mp (m.readAt_eq address)

private theorem view_of_sameAt {m m' : Memory} {b : Word}
    (h : List.Forall₂ (Region.SameAt b) m.regions m'.regions) :
    m'.cell b = m.cell b ∧ m'.isRam b = m.isRam b := by
  have hf := find?_rel (fun r r' (hs : Region.SameAt b r r') => hs.window) b h
  unfold cell isRam
  generalize m.regions.find? (·.contains b) = o at hf ⊢
  generalize m'.regions.find? (·.contains b) = o' at hf ⊢
  cases hf with
  | none => exact ⟨rfl, rfl⟩
  | some hs => exact ⟨hs.cell, hs.isRam⟩

theorem cell_afterRead (m : Memory) (address b : Word) :
    (m.afterRead address).cell b = m.cell b :=
  (view_of_sameAt (forall₂_readRegions (Region.SameAt.refl b)
    (fun r _ _ hr => r.sameAt_read b hr) (m.readRegions_eq address))).1

theorem isRam_afterRead (m : Memory) (address b : Word) :
    (m.afterRead address).isRam b = m.isRam b :=
  (view_of_sameAt (forall₂_readRegions (Region.SameAt.refl b)
    (fun r _ _ hr => r.sameAt_read b hr) (m.readRegions_eq address))).2

theorem cell_host (m : Memory) (index : Nat) (i : HostInput) (b : Word) :
    (m.host index i).cell b = m.cell b :=
  (view_of_sameAt (forall₂_modify (Region.SameAt.refl b) (fun r => r.sameAt_host i b)
    m.regions index)).1

theorem isRam_host (m : Memory) (index : Nat) (i : HostInput) (b : Word) :
    (m.host index i).isRam b = m.isRam b :=
  (view_of_sameAt (forall₂_modify (Region.SameAt.refl b) (fun r => r.sameAt_host i b)
    m.regions index)).2

/-- A store changes no stored byte but the one it addresses. -/
theorem cell_writeAt {m m' : Memory} {address : Word} {v : Byte} (h : m.writeAt address v = .ok m')
    {b : Word} (hb : b ≠ address) : m'.cell b = m.cell b :=
  (view_of_sameAt (forall₂_writeRegions (Region.SameAt.refl b)
    (fun r _ hr => r.sameAt_write hb hr) (writeAt_eq_ok.mp h))).1

theorem isRam_writeAt {m m' : Memory} {address : Word} {v : Byte}
    (h : m.writeAt address v = .ok m') (b : Word) : m'.isRam b = m.isRam b := by
  have hk : List.Forall₂ (fun r r' : Region => r'.window = r.window ∧
      r'.module.isRam = r.module.isRam) m.regions m'.regions :=
    forall₂_writeRegions (fun _ => ⟨rfl, rfl⟩) (fun r _ hr => r.sameKind_write hr)
      (writeAt_eq_ok.mp h)
  have hf := find?_rel (fun _ _ hs => hs.1) b hk
  unfold isRam
  generalize m.regions.find? (·.contains b) = o at hf ⊢
  generalize m'.regions.find? (·.contains b) = o' at hf ⊢
  cases hf with
  | none => rfl
  | some hs => exact hs.2

/-- Reading a stored byte returns it and leaves the memory as it was. -/
theorem readAt_of_cell {m : Memory} {address : Word} {v : Byte} (h : m.cell address = some v) :
    m.readAt address = .ok (v, m) := by
  rw [readAt_eq_ok]
  unfold cell at h
  generalize m.regions = rs at h ⊢
  induction rs with
  | nil => cases h
  | cons r rs ih =>
      unfold readRegions
      rw [List.find?_cons] at h
      by_cases hc : r.contains address = true
      · rw [hc] at h
        have hr : r.read address = .ok (v, r) := by
          unfold Region.read
          rw [if_pos hc, Module.read_of_cell h]
        rw [if_pos hc, hr]
      · rw [Bool.not_eq_true] at hc
        rw [hc] at h
        rw [hc, ih h]
        rfl

theorem byteAt_of_cell {m : Memory} {address : Word} {v : Byte} (h : m.cell address = some v) :
    m.byteAt address = v := by
  have heq := (m.readAt_eq address).symm.trans (readAt_of_cell h)
  exact (Prod.mk.inj (Except.ok.inj heq)).1

theorem afterRead_of_cell {m : Memory} {address : Word} {v : Byte}
    (h : m.cell address = some v) : m.afterRead address = m := by
  have heq := (m.readAt_eq address).symm.trans (readAt_of_cell h)
  exact (Prod.mk.inj (Except.ok.inj heq)).2

theorem cell_of_isRam {m : Memory} {address : Word} (h : m.isRam address = true) :
    ∃ v, m.cell address = some v := by
  unfold isRam at h
  unfold cell
  split at h
  · rename_i r hf
    have hlt := r.translate_lt address (by simpa using List.find?_some hf)
    exact Module.cell_of_isRam h hlt
  · cases h

/-- A store to a RAM address succeeds and is read back. -/
theorem writeAt_of_isRam {m : Memory} {address : Word} (h : m.isRam address = true) (v : Byte) :
    ∃ m', m.writeAt address v = .ok m' ∧ m'.cell address = some v := by
  suffices hs : ∃ rs', writeRegions address v m.regions = .ok rs' ∧
      ∃ r, rs'.find? (·.contains address) = some r ∧
        r.module.cell (r.translate address) = some v by
    obtain ⟨rs', hw, r, hf, hcell⟩ := hs
    refine ⟨⟨rs', by rw [windows_writeRegions hw]; exact m.disjoint⟩, writeAt_eq_ok.mpr hw, ?_⟩
    unfold cell
    rw [hf]
    exact hcell
  unfold isRam at h
  generalize m.regions = rs at h ⊢
  induction rs with
  | nil => cases h
  | cons r rs ih =>
      unfold writeRegions
      rw [List.find?_cons] at h
      by_cases hc : r.contains address = true
      · rw [hc] at h
        obtain ⟨md, hm, hcell⟩ := Module.write_ram v h (r.translate_lt address hc)
        have hw : r.write address v = .ok { r with module := md } := by
          unfold Region.write
          rw [if_pos hc, hm]
        rw [if_pos hc, hw]
        refine ⟨_, rfl, { r with module := md }, ?_, hcell⟩
        have hc' : Region.contains { r with module := md } address = true := hc
        rw [List.find?_cons, hc']
      · rw [Bool.not_eq_true] at hc
        rw [hc] at h
        obtain ⟨rs', hw, r', hf, hcell⟩ := ih h
        rw [hc, hw]
        refine ⟨_, rfl, r', ?_, hcell⟩
        rw [List.find?_cons, hc]
        exact hf

/-- A store fails only at a ROM or at an address without a region. -/
theorem writeAt_error {m : Memory} {address : Word} {v : Byte} {e : SimError}
    (h : m.writeAt address v = .error e) : e.IsMemoryWrite := by
  rw [writeAt_eq_error] at h
  generalize m.regions = rs at h
  induction rs with
  | nil => cases h; trivial
  | cons r rs ih =>
      unfold writeRegions at h
      by_cases hc : r.contains address = true
      · rw [if_pos hc] at h
        unfold Region.write at h
        rw [if_pos hc] at h
        cases hm : r.module.write (r.translate address) v with
        | ok md => rw [hm] at h; cases h
        | error e' =>
            rw [hm] at h
            cases h
            exact Module.write_error (r.translate_lt address hc) hm
      · rw [if_neg hc] at h
        cases hw : writeRegions address v rs with
        | ok rs' => rw [hw] at h; cases h
        | error e' =>
            rw [hw] at h
            cases h
            exact ih hw

end Memory

end Irata2.Sim
