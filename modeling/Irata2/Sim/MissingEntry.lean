import Irata2.Sim.Microstep
import Irata2.Sim.Run

/-!
# Keys without microcode

The table of a program is sparse and the ROM is dense.  A key that the table lacks throws only
when it lies above every key of the table; below the largest key it reads a zero word, which
asserts nothing, and a CPU at such a key stays where it is.
-/

namespace Irata2.Sim

open Hdl Library Library.StateRun Microcode

namespace InstructionMemory

theorem foldl_max_lt_iff {table : List (Nat × ControlWord)} {m k : Nat} :
    table.foldl (fun maxAddress e => max maxAddress e.1) m < k ↔ m < k ∧ ∀ e ∈ table, e.1 < k := by
  induction table generalizing m with
  | nil => simp
  | cons e table ih =>
      rw [List.foldl_cons, ih, List.forall_mem_cons, Nat.max_lt]
      exact and_assoc

theorem romSize_le_iff {table : List (Nat × ControlWord)} {k : Nat} :
    romSize table ≤ k ↔ 0 < k ∧ ∀ e ∈ table, e.1 < k :=
  foldl_max_lt_iff

/-- What `Lookup` is documented to do at a key: the controls of the table's entry, and an error
when the table has none. -/
def LooksUp (m : InstructionMemory) (table : List (Nat × ControlWord)) (key : MicrocodeKey) : Prop :=
  match table.lookup (encodeKey key) with
  | some word => m.lookup key.opcode key.step key.status = .ok (decode word)
  | none => ∃ e, m.lookup key.opcode key.step key.status = .error e

theorem not_looksUp {m : InstructionMemory} {table : List (Nat × ControlWord)} {key : MicrocodeKey}
    (hnone : table.lookup (encodeKey key) = none) {controls : List Control}
    (hl : m.lookup key.opcode key.step key.status = .ok controls) : ¬m.LooksUp table key := by
  unfold LooksUp
  rw [hnone]
  rintro ⟨e, he⟩
  cases hl.symm.trans he

section Program

variable {p : MicrocodeProgram} {m : InstructionMemory}

/-- The ROM of a program at a key: the table's word, a zero word, or nothing. -/
theorem read_eq (hkeys : (p.table.map Prod.fst).Nodup) (hm : new cpuControls p = .ok m)
    (k : Nat) :
    m.rom.read k =
      if romSize p.table ≤ k then
        .error (.romReadOutOfBounds "controller.instruction_memory.rom" k (romSize p.table))
      else .ok ((p.table.lookup k).getD 0) := by
  have hrom := read_burn hkeys (new_eq_ok hm).2.2 k
  unfold MicrocodeRom.read
  rw [hrom.1, hrom.2]

/-- A key without entry that lies below the end of the ROM looks up no controls. -/
theorem lookup_of_missing (hkeys : (p.table.map Prod.fst).Nodup) (hm : new cpuControls p = .ok m)
    {key : MicrocodeKey} (hnone : p.table.lookup (encodeKey key) = none)
    (hlt : encodeKey key < romSize p.table) :
    m.lookup key.opcode key.step key.status = .ok [] := by
  have hread := read_eq hkeys hm (encodeKey key)
  rw [if_neg (Nat.not_le.mpr hlt), hnone] at hread
  rw [lookup_of_word (new_eq_ok hm).1 hread fun i hi => by simp at hi]
  refine congrArg _ (List.filter_eq_nil_iff.mpr fun c _ => ?_)
  simp

theorem controlPaths_length (hm : new cpuControls p = .ok m) : p.controlPaths.length = 95 := by
  rcases bind_eq_ok.mp hm with ⟨controls, hc, -⟩
  have hlen := throwIf_eq_ok.mp (seq_eq_ok.mp (seq_eq_ok.mp hc).2).1
  rw [not_not, cpuControls_length] at hlen
  exact hlen.symm

/-- `Lookup` does what it is documented to do at a key exactly when the table has an entry for the
key or the key lies above the whole table. -/
theorem looksUp_iff (hkeys : (p.table.map Prod.fst).Nodup)
    (hwords : ∀ e ∈ p.table, ∀ i, e.2.getLsbD i = true → i < p.controlPaths.length)
    (hm : new cpuControls p = .ok m) (key : MicrocodeKey) :
    m.LooksUp p.table key ↔
      (∃ e ∈ p.table, e.1 = encodeKey key) ∨
        (0 < encodeKey key ∧ ∀ e ∈ p.table, e.1 < encodeKey key) := by
  rw [← romSize_le_iff]
  cases hl : p.table.lookup (encodeKey key) with
  | some word =>
      have hmem := Table.mem_of_lookup hl
      refine iff_of_true ?_ (.inl ⟨_, hmem, rfl⟩)
      unfold LooksUp
      rw [hl]
      have hread := read_eq hkeys hm (encodeKey key)
      rw [if_neg (Nat.not_le.mpr (lt_romSize hmem)), hl] at hread
      refine lookup_of_word (new_eq_ok hm).1 hread fun i hi => ?_
      rw [← controlPaths_length hm]
      exact hwords _ hmem i hi
  | none =>
      have hno : ¬∃ e ∈ p.table, e.1 = encodeKey key := by
        rintro ⟨e, he, heq⟩
        exact Table.lookup_eq_none_iff_notMem.mp hl (heq ▸ List.mem_map_of_mem he)
      rw [or_iff_right hno]
      by_cases hsize : romSize p.table ≤ encodeKey key
      · refine iff_of_true ?_ hsize
        unfold LooksUp lookup
        rw [hl, read_eq hkeys hm, if_pos hsize]
        exact ⟨_, rfl⟩
      · have hnil := lookup_of_missing hkeys hm hl (Nat.not_le.mp hsize)
        exact iff_of_false (not_looksUp hl hnil) hsize

end Program

/-! ## A program with a gap -/

/-- Microcode for the last opcode only. -/
def gapProgram : MicrocodeProgram :=
  ⟨[(encodeKey ⟨0xFF, 0, 0⟩, encodeControls [.halt])], controlPaths, []⟩

theorem exists_gap : ∃ rom, new cpuControls gapProgram = .ok ⟨cpuControls, [], rom⟩ :=
  ⟨_, bind_eq_ok.mpr ⟨_, ControlEncoder.init_controlPaths, bind_eq_ok.mpr ⟨_,
    @StatusEncoder.init_map [] (by decide),
    bind_eq_ok.mpr ⟨_, burn_eq gapProgram.table, rfl⟩⟩⟩⟩

theorem lt_of_mem_gap (e : Nat × ControlWord) (he : e ∈ gapProgram.table) (i : Nat)
    (hi : e.2.getLsbD i = true) : i < gapProgram.controlPaths.length := by
  rw [List.mem_singleton.mp he] at hi
  rcases (getLsbD_encodeControls _ i).mp hi with ⟨c, -, rfl⟩
  show controlIndex c < (cpuControls.map Control.path).length
  rw [List.length_map, cpuControls_length]
  exact controlIndex_lt c

/-- The entry of the last opcode and a key without entry. -/
theorem looksUp_iff_gap :
    ∃ m, new cpuControls gapProgram = .ok m ∧ m.LooksUp gapProgram.table ⟨0xFF, 0, 0⟩ ∧
      ¬m.LooksUp gapProgram.table ⟨0x02, 0, 0⟩ := by
  rcases exists_gap with ⟨rom, hm⟩
  have hkeys : (gapProgram.table.map Prod.fst).Nodup := List.nodup_singleton _
  refine ⟨_, hm, (looksUp_iff hkeys lt_of_mem_gap hm _).mpr (by decide), fun h => ?_⟩
  exact absurd ((looksUp_iff hkeys lt_of_mem_gap hm _).mp h) (by decide)

end InstructionMemory

namespace Cpu

/-- A CPU whose lookup finds no controls does nothing in a tick: it comes back with the same
opcode, step and registers. -/
theorem tick_of_no_controls {cpu : Cpu} (hidle : cpu.Idle) (hh : cpu.halted = false)
    (hl : cpu.lookup = .ok []) :
    ∃ s, tick cpu = .ok () s ∧ s.Idle ∧ s.halted = false ∧ s.datapath = cpu.datapath ∧
      s.controller = cpu.controller := by
  have hb : Component.RespectsBuses (cpu.assertedBy []) := by
    have hnil : BusValid ⟨0, []⟩ := fun bus => ⟨Nat.zero_le 1, fun h => absurd rfl h⟩
    exact Component.respectsBuses_of_busValid hnil fun d bus hd => assertedBy_of_bus hd
  have hd : cpu.datapath.step (cpu.assertedBy []) = .ok cpu.datapath := by
    rw [step_assertedBy, Microstep.step_nil]
  refine ⟨_, tick_of_step hidle hh hl hb hd, idle_afterTick cpu _ _, ?_, rfl, rfl⟩
  show (cpu.halted || _ || _) = false
  rw [hh]
  rfl

/-- A CPU that has reached a key without microcode below the end of the ROM ticks forever, without
an error and without progress. -/
theorem ticks_of_no_controls {cpu : Cpu} (hidle : cpu.Idle) (hh : cpu.halted = false)
    (hl : cpu.lookup = .ok []) (n : Nat) :
    ∃ s, ticks n cpu = .ok () s ∧ s.halted = false ∧ s.datapath = cpu.datapath ∧
      s.controller = cpu.controller := by
  induction n generalizing cpu with
  | zero => exact ⟨cpu, rfl, hh, rfl, rfl⟩
  | succ n ih =>
      rcases tick_of_no_controls hidle hh hl with ⟨s, ht, hidle', hh', hd, hk⟩
      have hl' : s.lookup = .ok [] := by
        rw [← hl]
        unfold lookup encodedStatus irValue
        rw [hd, hk]
      rcases ih hidle' hh' hl' with ⟨t, hticks, hht, hdt, hkt⟩
      exact ⟨t, (ticks_succ ht n).trans hticks, hht, hdt.trans hd, hkt.trans hk⟩

open InstructionMemory in
/-- A CPU that starts on an opcode without microcode: the lookup returns no controls, and the CPU
ticks forever. -/
theorem not_looksUp_gap :
    ∃ cpu, Cpu.new gapProgram [] [] = .ok cpu ∧
      gapProgram.table.lookup (encodeKey ⟨cpu.irValue, cpu.controller.sc, 0⟩) = none ∧
      cpu.lookup = .ok [] ∧
      ¬cpu.controller.instructionMemory.LooksUp gapProgram.table
        ⟨cpu.irValue, cpu.controller.sc, 0⟩ ∧
      ∀ n, ∃ s, ticks n cpu = .ok () s ∧ s.halted = false ∧ s.datapath = cpu.datapath ∧
        s.controller = cpu.controller := by
  rcases exists_gap with ⟨rom, hm⟩
  have hnew := Cpu.new_eq new_bareMemory hm
  have hmissing : gapProgram.table.lookup (encodeKey ⟨0x02, 0, 0⟩) = none := by decide
  have hlookup := lookup_of_missing (p := gapProgram) (List.nodup_singleton _) hm hmissing
    (by decide)
  exact ⟨_, hnew, hmissing, hlookup, not_looksUp hmissing hlookup,
    ticks_of_no_controls (loaded_new hnew).idle rfl hlookup⟩

end Cpu

end Irata2.Sim
