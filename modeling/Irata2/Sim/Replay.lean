import Irata2.Sim.Access

/-!
# Accesses and the memory

The memory changes through accesses only: a run of ticks leaves the memory that its log of accesses
makes of the memory before.  So what a log leaves alone, the run leaves alone, and a device loses
one key for each read of its data register.
-/

namespace Irata2.Sim

open Hdl Library Library.StateRun Microcode

/-! ## The pending keys of a device -/

namespace InputDevice

/-- The pending keys, oldest first. -/
def keys (d : InputDevice) : List Byte :=
  (List.range d.count).map fun k => d.queue (d.readIdx + Fin.ofNat 16 k)

theorem keys_pop (d : InputDevice) : d.pop.2.keys = d.keys.tail := by
  unfold pop
  split
  · rename_i h
    unfold keys
    rw [h]
    rfl
  · rename_i h
    obtain ⟨n, hn⟩ := Nat.exists_eq_succ_of_ne_zero h
    have hindex : ∀ k, d.readIdx + 1 + Fin.ofNat 16 k = d.readIdx + Fin.ofNat 16 (k + 1) := by
      intro k
      apply Fin.ext
      simp only [Fin.val_add, Fin.ofNat]
      change ((d.readIdx.val + 1) % 16 + k % 16) % 16 = (d.readIdx.val + (k + 1) % 16) % 16
      omega
    show (List.range (d.count - 1)).map (fun k => d.queue (d.readIdx + 1 + Fin.ofNat 16 k)) = _
    unfold keys
    rw [hn, List.range_succ_eq_map, List.map_cons, List.tail_cons, List.map_map]
    exact List.map_congr_left fun k _ => congrArg d.queue (hindex k)

theorem keys_read (d : InputDevice) (offset : Word) :
    (d.read offset).2.keys = if offset = InputReg.data then d.keys.tail else d.keys := by
  unfold read
  by_cases hdata : offset = InputReg.data
  · subst hdata
    exact d.keys_pop
  · rw [if_neg hdata, if_neg hdata]
    split_ifs <;> rfl

theorem keys_write (d : InputDevice) (offset : Word) (value : Byte) :
    (d.write offset value).keys = d.keys := by
  unfold write
  split <;> rfl

end InputDevice

namespace Module

/-- The pending keys of an input device. -/
def keys {size : Nat} : Module size → Option (List Byte)
  | .inputDevice d => some d.keys
  | _ => none

theorem keys_read {size : Nat} {path : String} {m m' : Module size} {address : Word} {v : Byte}
    (h : m.read path address = .ok (v, m')) :
    m'.keys = if address = InputReg.data then m.keys.map List.tail else m.keys := by
  cases m with
  | ram cells =>
      by_cases hlt : address.toNat < size
      · simp only [read, dif_pos hlt] at h
        cases h
        exact (ite_self _).symm
      · simp only [read, dif_neg hlt] at h
        cases h
  | rom storage =>
      by_cases hlt : address.toNat < size
      · simp only [read, dif_pos hlt] at h
        cases h
        exact (ite_self _).symm
      · simp only [read, dif_neg hlt] at h
        cases h
  | inputDevice d =>
      cases h
      show some (d.read address).2.keys = _
      rw [InputDevice.keys_read]
      split <;> rfl
  | vectorGraphicsCoprocessor d =>
      cases h
      exact (ite_self _).symm

theorem keys_write {size : Nat} {m m' : Module size} {address : Word} {v : Byte}
    (h : m.write address v = .ok m') : m'.keys = m.keys := by
  cases m with
  | ram cells =>
      by_cases hlt : address.toNat < size
      · simp only [write, dif_pos hlt] at h
        cases h
        rfl
      · simp only [write, dif_neg hlt] at h
        cases h
  | rom storage => cases h
  | inputDevice d =>
      cases h
      exact congrArg some (d.keys_write address v)
  | vectorGraphicsCoprocessor d =>
      cases h
      rfl

end Module

namespace Region

/-- The keys behind a data register at an address of the region. -/
def keysAt (r : Region) (address : Word) : Option (List Byte) :=
  if r.translate address = InputReg.data then r.module.keys else none

theorem keysAt_read {r r' : Region} {address : Word} {v : Byte} (b : Word)
    (h : r.read address = .ok (v, r')) :
    r'.keysAt b = if address = b then (r.keysAt b).map List.tail else r.keysAt b := by
  obtain ⟨m, hm, rfl⟩ := read_eq h
  have hkeys := Module.keys_read hm
  by_cases hb : r.translate b = InputReg.data
  · have hiff : r.translate address = InputReg.data ↔ address = b := by
      rw [← hb]
      exact r.translate_injective.eq_iff
    simp only [hiff] at hkeys
    show (if r.translate b = InputReg.data then m.keys else none) = _
    unfold keysAt
    rw [if_pos hb, if_pos hb]
    exact hkeys
  · show (if r.translate b = InputReg.data then m.keys else none) = _
    unfold keysAt
    rw [if_neg hb, if_neg hb]
    exact (ite_self _).symm

theorem keysAt_write {r r' : Region} {address : Word} {v : Byte} (b : Word)
    (h : r.write address v = .ok r') : r'.keysAt b = r.keysAt b := by
  obtain ⟨m, hm, rfl⟩ := write_eq h
  show (if r.translate b = InputReg.data then m.keys else none) = _
  rw [Module.keys_write hm]
  rfl

end Region

namespace Memory

/-- The keys behind the data register of an input device at an address; `none` when the address is
no such register. -/
def keysAt (m : Memory) (address : Word) : Option (List Byte) :=
  match m.regions.find? (·.contains address) with
  | some r => r.keysAt address
  | none => none

/-- Regions with the same windows, of which every one shows the same keys. -/
private theorem keysAt_of_forall₂ {m m' : Memory} {b : Word}
    (h : List.Forall₂ (fun r r' : Region => r'.window = r.window ∧ r'.keysAt b = r.keysAt b)
      m.regions m'.regions) : m'.keysAt b = m.keysAt b := by
  have hf := find?_rel (fun r r' (hs : r'.window = r.window ∧ r'.keysAt b = r.keysAt b) => hs.1) b h
  unfold keysAt
  generalize m.regions.find? (·.contains b) = o at hf ⊢
  generalize m'.regions.find? (·.contains b) = o' at hf ⊢
  cases hf with
  | some hr => exact hr.2
  | none => rfl

theorem keysAt_writeAt {m m' : Memory} {address : Word} {v : Byte}
    (h : m.writeAt address v = .ok m') (b : Word) : m'.keysAt b = m.keysAt b :=
  keysAt_of_forall₂ (forall₂_writeRegions (fun _ => ⟨rfl, rfl⟩)
    (fun _ _ hr => ⟨(Region.sameKind_write hr).1, Region.keysAt_write b hr⟩) (writeAt_eq_ok.mp h))

theorem keysAt_afterRead_of_ne (m : Memory) {address b : Word} (hb : address ≠ b) :
    (m.afterRead address).keysAt b = m.keysAt b :=
  keysAt_of_forall₂ (forall₂_readRegions (fun _ => ⟨rfl, rfl⟩)
    (fun _ _ _ hr => ⟨(Region.sameAt_read b hr).window,
      (Region.keysAt_read b hr).trans (if_neg hb)⟩) (m.readRegions_eq address))

/-- A read of a data register removes the oldest key. -/
theorem keysAt_afterRead_self (m : Memory) (b : Word) :
    (m.afterRead b).keysAt b = (m.keysAt b).map List.tail := by
  have hregions : ∀ (rs rs' : List Region) v, readRegions b rs = .ok (v, rs') →
      (rs'.find? fun r : Region => r.contains b).bind (·.keysAt b) =
        ((rs.find? fun r : Region => r.contains b).bind (·.keysAt b)).map List.tail := by
    intro rs
    induction rs with
    | nil =>
        intro rs' v h
        cases h
        rfl
    | cons r rs ih =>
        intro rs' v h
        rcases readRegions_cons h with ⟨hc, r', hr, rfl⟩ | ⟨hc, rs'', hrest, rfl⟩
        · -- the first region that answers is the one that is read
          have hc' : r'.contains b = true :=
            (Region.contains_of_window (Region.sameAt_read b hr).window b).trans hc
          rw [List.find?_cons_of_pos (p := fun r : Region => r.contains b) hc',
            List.find?_cons_of_pos (p := fun r : Region => r.contains b) hc]
          exact (Region.keysAt_read b hr).trans (if_pos rfl)
        · have hc' : ¬r.contains b = true := by
            rw [hc]
            decide
          rw [List.find?_cons_of_neg (p := fun r : Region => r.contains b) hc',
            List.find?_cons_of_neg (p := fun r : Region => r.contains b) hc']
          exact ih rs'' v hrest
  have hbind : ∀ m : Memory,
      m.keysAt b = (m.regions.find? fun r : Region => r.contains b).bind (·.keysAt b) := by
    intro m
    unfold keysAt
    cases m.regions.find? fun r : Region => r.contains b <;> rfl
  rw [hbind, hbind]
  exact hregions _ _ _ (m.readRegions_eq b)

/-! ## Replaying a log -/

/-- The accesses of a log lead from one memory to another; a store that fails changes nothing. -/
inductive Replays : List Access → Memory → Memory → Prop
  | nil (m : Memory) : Replays [] m m
  | read {address : Word} {log : List Access} {m m' : Memory}
      (h : Replays log (m.afterRead address) m') : Replays (.read address :: log) m m'
  | write {address : Word} {v : Byte} {log : List Access} {m m₁ m' : Memory}
      (hw : m.writeAt address v = .ok m₁) (h : Replays log m₁ m') :
      Replays (.write address :: log) m m'
  | failed {address : Word} {v : Byte} {e : SimError} {log : List Access} {m m' : Memory}
      (hw : m.writeAt address v = .error e) (h : Replays log m m') :
      Replays (.write address :: log) m m'

namespace Replays

variable {log log' : List Access} {m m' m'' : Memory}

theorem append (h : Replays log m m') (h' : Replays log' m' m'') :
    Replays (log ++ log') m m'' := by
  induction h with
  | nil m => exact h'
  | read _ ih => exact .read (ih h')
  | write hw _ ih => exact .write hw (ih h')
  | failed hw _ ih => exact .failed hw (ih h')

theorem isRam (h : Replays log m m') (b : Word) : m'.isRam b = m.isRam b := by
  induction h with
  | nil m => rfl
  | read _ ih => rw [ih, isRam_afterRead]
  | write hw _ ih => rw [ih, isRam_writeAt hw]
  | failed _ _ ih => exact ih

/-- A byte that the log does not write stays. -/
theorem cell (h : Replays log m m') {b : Word} (hb : Access.write b ∉ log) :
    m'.cell b = m.cell b := by
  induction h with
  | nil m => rfl
  | read _ ih => rw [ih fun hmem => hb (List.mem_cons_of_mem _ hmem), cell_afterRead]
  | write hw _ ih =>
      have hne : b ≠ _ := fun heq => hb (heq ▸ List.mem_cons_self)
      rw [ih fun hmem => hb (List.mem_cons_of_mem _ hmem), cell_writeAt hw hne]
  | failed _ _ ih => exact ih fun hmem => hb (List.mem_cons_of_mem _ hmem)

/-- A device loses its oldest keys, one for each read of its data register. -/
theorem keysAt (h : Replays log m m') (b : Word) :
    m'.keysAt b = (m.keysAt b).map (List.drop (log.count (.read b))) := by
  induction h with
  | nil m =>
      show m.keysAt b = (m.keysAt b).map (List.drop 0)
      cases m.keysAt b <;> rfl
  | @read address log m m' _ ih =>
      rw [ih]
      by_cases hb : address = b
      · subst hb
        rw [keysAt_afterRead_self, List.count_cons_self, Option.map_map]
        congr 1
        funext l
        exact List.drop_tail
      · rw [keysAt_afterRead_of_ne m hb, List.count_cons_of_ne fun heq => hb (Access.read.inj heq)]
  | write hw _ ih => rw [ih, keysAt_writeAt hw, List.count_cons_of_ne Access.noConfusion]
  | failed _ _ ih => rw [ih, List.count_cons_of_ne Access.noConfusion]

end Replays

end Memory

/-! ## Ticks -/

namespace Datapath

open Component

/-- Until the store, the memory has been read where a read was asserted. -/
theorem memory_untilStore (cs : Control → Bool) (d : Datapath) :
    (d.untilStore cs).1.memory =
      if cs .memoryWrite then d.memory.afterRead d.mar else d.memory := by
  -- the memory changes when it drives the bus, and not before the store otherwise
  have hwrite : ∀ (l : List Component), .memory ∉ l → ∀ w : Datapath × Buses,
      (l.foldl (fun w c => c.write cs w) w).1 = w.1 := by
    intro l
    induction l with
    | nil => exact fun _ _ => rfl
    | cons c l ih =>
        intro hl w
        rw [List.mem_cons, not_or] at hl
        rw [List.foldl_cons, ih hl.2]
        cases c with
        | memory => exact absurd rfl hl.1
        | byteRegister r =>
            simp only [Component.write]
            split <;> rfl
        | wordRegister r =>
            simp only [Component.write]
            split <;> rfl
        | _ => rfl
  have hread : ∀ (l : List Component) b d, (l.foldl (Component.read cs b) d).memory = d.memory := by
    intro l b
    induction l with
    | nil => exact fun _ => rfl
    | cons c l ih =>
        intro d
        rw [List.foldl_cons, ih]
        cases c with
        | byteRegister r =>
            simp only [Component.read]
            split
            · cases r <;> rfl
            · rfl
        | wordRegister r =>
            simp only [Component.read]
            split
            · cases r <;> rfl
            · rfl
        | _ => rfl
  show (front.foldl _ (d.drive cs).1).memory = _
  rw [hread]
  unfold drive components
  rw [List.foldl_append, List.foldl_cons, hwrite back (by decide)]
  have hfront := hwrite front (by decide) (d, Buses.empty)
  generalize front.foldl (fun w c => c.write cs w) (d, Buses.empty) = w at hfront
  have hw : w.1 = d := hfront
  simp only [Component.write]
  rw [← hw]
  split <;> rfl

theorem memory_finish (cs : Control → Bool) (b : Buses) (d : Datapath) :
    (finish cs b d).memory = d.memory := by
  have hread : ∀ (l : List Component) d, (l.foldl (Component.read cs b) d).memory = d.memory := by
    intro l
    induction l with
    | nil => exact fun _ => rfl
    | cons c l ih =>
        intro d
        rw [List.foldl_cons, ih]
        cases c with
        | byteRegister r =>
            simp only [Component.read]
            split
            · cases r <;> rfl
            · rfl
        | wordRegister r =>
            simp only [Component.read]
            split
            · cases r <;> rfl
            · rfl
        | _ => rfl
  have hprocess : ∀ (l : List Component) d, (l.foldl (process cs) d).memory = d.memory := by
    intro l
    induction l with
    | nil => exact fun _ => rfl
    | cons c l ih =>
        intro d
        rw [List.foldl_cons, ih]
        cases c with
        | byteRegister r =>
            cases r <;> (simp only [process]; split_ifs <;> rfl)
        | wordRegister r =>
            cases r <;> (simp only [process]; split_ifs <;> rfl)
        | statusBit f =>
            simp only [process]
            split <;> rfl
        | _ => rfl
  unfold finish
  rw [hprocess, hread]

/-- What is replayed after the read of a tick. -/
theorem replays_of_untilStore {cs : Control → Bool} {d : Datapath} {log : List Access}
    {m : Memory} (h : Memory.Replays log (d.untilStore cs).1.memory m) :
    Memory.Replays ((if cs .memoryWrite then [.read d.mar] else []) ++ log) d.memory m := by
  rw [memory_untilStore] at h
  split at h
  · rename_i hw
    rw [if_pos hw]
    exact .read h
  · rename_i hw
    rw [if_neg hw]
    exact h

/-- A tick of the datapath replays its accesses. -/
theorem replays_step {cs : Control → Bool} {d d' : Datapath} (h : d.step cs = .ok d') :
    Memory.Replays (d.accesses cs) d.memory d'.memory := by
  unfold accesses
  apply replays_of_untilStore
  change (if cs .memoryRead then ((d.untilStore cs).1.memory.writeAt (d.untilStore cs).1.mar
    ((d.drive cs).2.data.getD 0)).map _ else .ok _) = _ at h
  split at h
  · rename_i hstore
    rw [if_pos hstore]
    cases hw : (d.untilStore cs).1.memory.writeAt (d.untilStore cs).1.mar
      ((d.drive cs).2.data.getD 0) with
    | error e =>
        rw [hw] at h
        cases h
    | ok m =>
        rw [hw] at h
        cases h
        rw [memory_finish]
        exact .write hw (.nil m)
  · rename_i hstore
    rw [if_neg hstore]
    cases h
    rw [memory_finish]
    exact .nil _

/-- A tick whose store fails replays its accesses as well. -/
theorem replays_untilStore {cs : Control → Bool} {d : Datapath} {e : SimError}
    (h : d.step cs = .error e) :
    Memory.Replays (d.accesses cs) d.memory (d.untilStore cs).1.memory := by
  unfold accesses
  apply replays_of_untilStore
  change (if cs .memoryRead then ((d.untilStore cs).1.memory.writeAt (d.untilStore cs).1.mar
    ((d.drive cs).2.data.getD 0)).map _ else .ok _) = _ at h
  split at h
  · rename_i hstore
    rw [if_pos hstore]
    cases hw : (d.untilStore cs).1.memory.writeAt (d.untilStore cs).1.mar
      ((d.drive cs).2.data.getD 0) with
    | error e =>
        exact .failed hw (.nil _)
    | ok m =>
        rw [hw] at h
        cases h
  · cases h

end Datapath

namespace Cpu

variable {c : Compiler} {is : InstructionSet} {p : MicrocodeProgram}

/-- The memory that a result of ticks leaves behind. -/
def memoryOf : EStateM.Result SimError Cpu Unit → Memory
  | .ok _ cpu => cpu.datapath.memory
  | .error _ cpu => cpu.datapath.memory

theorem replays_tick (hc : c.compile is = .ok p) {cpu : Cpu} (hload : cpu.Loaded p) :
    Memory.Replays cpu.accesses cpu.datapath.memory (memoryOf (tick cpu)) := by
  by_cases hh : cpu.halted = true
  · rw [tick_of_halted hh]
    unfold accesses
    rw [hh]
    exact .nil _
  · rw [Bool.not_eq_true] at hh
    cases hl : cpu.lookup with
    | error e =>
        rw [tick_of_lookup_error hh hl]
        unfold accesses
        rw [hh, hl]
        exact .nil _
    | ok controls =>
        have hb := respectsBuses_of_lookup hc hload hl
        rw [accesses_of_lookup hh hl]
        cases hd : cpu.datapath.step (cpu.assertedBy controls) with
        | ok d =>
            rw [tick_of_step hload.idle hh hl hb hd]
            exact Datapath.replays_step hd
        | error e =>
            rw [tick_of_step_error hload.idle hh hl hb hd]
            exact Datapath.replays_untilStore hd

/-- Ticks replay their log of accesses, up to the first one that throws. -/
theorem replays_ticks (hc : c.compile is = .ok p) {cpu : Cpu} (hload : cpu.Loaded p) (n : Nat) :
    Memory.Replays (accessLog n cpu) cpu.datapath.memory (memoryOf (ticks n cpu)) := by
  induction n generalizing cpu with
  | zero => exact .nil _
  | succ n ih =>
      have htick := replays_tick hc hload
      cases ht : tick cpu with
      | ok u t =>
          rw [ht] at htick
          rw [accessLog_succ ht, ticks_succ ht]
          exact htick.append (ih (loaded_step hc hload (.tick ht)))
      | error e t =>
          rw [ht] at htick
          rw [accessLog_of_error ht]
          have hticks : ticks (n + 1) cpu = .error e t := bind_of_error ht
          rw [hticks]
          exact htick

end Cpu

end Irata2.Sim
