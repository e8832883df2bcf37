import Irata2.Microcode.Encoding
import Irata2.Sim.Error

/-!
# The microcode ROM

The controller burns a compiled program into a ROM and finds the controls of a tick by the opcode,
the step and the status.  Its encoders rebuild the order of the controls and of the status bits
from the program, and refuse a program whose order is not the simulator's.
-/

namespace Irata2.Sim

open Hdl Library Microcode

/-! ## Encoders -/

namespace ControlEncoder

/-- `Initialize`: the program must list the controls of the simulator, in its order. -/
def init (controlOrder : List Control) (controlPaths : List String) :
    Except SimError (List Control) := do
  throwIf (128 < controlPaths.length) (.tooManyControls controlPaths.length)
  throwIf (controlOrder.length ≠ controlPaths.length) .controlTableSizeMismatch
  (controlOrder.zip controlPaths).forM fun (c, expected) =>
    throwIf (c.path ≠ expected) (.controlPathOrderMismatch expected)
  pure controlOrder

def getControl (references : List Control) (index : Nat) : Except SimError Control :=
  match references[index]? with
  | some c => .ok c
  | none => .error (.controlIndexOutOfRange index references.length)

theorem init_controlPaths : init cpuControls controlPaths = .ok cpuControls := by
  have hlength : controlPaths.length = 95 := by
    rw [controlPaths, List.length_map, cpuControls_length]
  unfold init
  rw [hlength, cpuControls_length]
  refine seq_eq_ok.mpr ⟨rfl, seq_eq_ok.mpr ⟨rfl, seq_eq_ok.mpr ⟨?_, rfl⟩⟩⟩
  rw [forM_eq_ok]
  rintro ⟨d, path⟩ hmem
  rw [throwIf_eq_ok, not_not]
  unfold controlPaths at hmem
  rw [← List.map_id cpuControls, List.map_map, List.zip_map'] at hmem
  rcases List.mem_map.mp hmem with ⟨e, -, he⟩
  cases he
  rfl

end ControlEncoder

namespace StatusEncoder

/-- The bits that a program may name. -/
def statusMap : List StatusBit :=
  [.negative, .overflow, .unused, .brk, .decimal, .interruptDisable, .zero, .carry]

def resolve (definition : StatusBitDefinition) : Except SimError StatusBit :=
  match statusMap.find? (·.name = definition.name) with
  | none => .error (.unknownStatusBit definition.name)
  | some f =>
      if f.bitIndex ≠ definition.bit then
        .error (.statusBitIndexMismatch definition.name definition.bit f.bitIndex)
      else .ok f

def init (statusBits : List StatusBitDefinition) : Except SimError (List StatusBit) := do
  throwIf (8 < statusBits.length) (.tooManyStatusBits statusBits.length)
  statusBits.mapM resolve

/-- `Encode`: the bits of the status register that the program refers to. -/
def encode (references : List StatusBit) (status : Byte) : Byte :=
  references.foldl
    (fun encoded f =>
      if status.getLsbD f.bitIndex then encoded ||| (1#8 <<< f.bitIndex) else encoded) 0

theorem resolve_eq_ok {definition : StatusBitDefinition} {f : StatusBit}
    (h : resolve definition = .ok f) : definition = ⟨f.name, f.bitIndex⟩ := by
  unfold resolve at h
  split at h
  · cases h
  · rename_i g hg
    split at h
    · cases h
    · rename_i hbit
      cases h
      have hname := List.find?_some hg
      rw [decide_eq_true_eq] at hname
      cases definition
      exact congrArg₂ StatusBitDefinition.mk hname.symm (not_not.mp hbit).symm

theorem resolve_statusBit (f : StatusBit) : resolve ⟨f.name, f.bitIndex⟩ = .ok f := by
  cases f <;> decide +kernel

/-- An accepted program names bits of the status register, each with its own index. -/
theorem init_eq_ok {statusBits : List StatusBitDefinition} {references : List StatusBit}
    (h : init statusBits = .ok references) :
    statusBits = references.map fun f => ⟨f.name, f.bitIndex⟩ := by
  have hmap := (seq_eq_ok.mp h).2
  clear h
  induction statusBits generalizing references with
  | nil =>
      cases hmap
      rfl
  | cons b statusBits ih =>
      rw [List.mapM_cons] at hmap
      rcases bind_eq_ok.mp hmap with ⟨f, hf, hmap⟩
      rcases bind_eq_ok.mp hmap with ⟨fs, hfs, hmap⟩
      cases hmap
      rw [List.map_cons, ← resolve_eq_ok hf, ← ih hfs]

theorem init_map {references : List StatusBit} (hlen : references.length ≤ 8) :
    init (references.map fun f => ⟨f.name, f.bitIndex⟩) = .ok references := by
  have hmap : (references.map fun f => (⟨f.name, f.bitIndex⟩ : StatusBitDefinition)).mapM resolve =
      .ok references := by
    clear hlen
    induction references with
    | nil => rfl
    | cons f references ih =>
        rw [List.map_cons, List.mapM_cons, resolve_statusBit, ih]
        rfl
  refine seq_eq_ok.mpr ⟨throwIf_eq_ok.mpr ?_, hmap⟩
  rw [List.length_map]
  omega

private theorem getLsbD_foldl_encode (references : List StatusBit) (status v : Byte) (j : Nat) :
    (references.foldl
      (fun encoded f =>
        if status.getLsbD f.bitIndex then encoded ||| (1#8 <<< f.bitIndex) else encoded)
      v).getLsbD j = true ↔
      v.getLsbD j = true ∨ (status.getLsbD j = true ∧ ∃ f ∈ references, f.bitIndex = j) := by
  induction references generalizing v with
  | nil => simp
  | cons f references ih =>
      rw [List.foldl_cons, ih]
      by_cases hf : status.getLsbD f.bitIndex = true
      · rw [if_pos hf, BitVec.getLsbD_or, getLsbD_one_shiftLeft, Bool.or_eq_true, Bool.and_eq_true,
          decide_eq_true_eq, decide_eq_true_eq, or_assoc]
        refine or_congr_right ?_
        have hlt := f.bitIndex_lt
        constructor
        · rintro (⟨-, rfl⟩ | ⟨hs, g, hg, hj⟩)
          · exact ⟨hf, f, List.mem_cons_self, rfl⟩
          · exact ⟨hs, g, List.mem_cons_of_mem _ hg, hj⟩
        · rintro ⟨hs, g, hg, hj⟩
          rcases List.mem_cons.mp hg with rfl | hg
          · exact .inl ⟨by omega, hj⟩
          · exact .inr ⟨hs, g, hg, hj⟩
      · rw [if_neg hf]
        refine or_congr_right (and_congr_right fun hs => ?_)
        constructor
        · rintro ⟨g, hg, hj⟩
          exact ⟨g, List.mem_cons_of_mem _ hg, hj⟩
        · rintro ⟨g, hg, hj⟩
          rcases List.mem_cons.mp hg with rfl | hg
          · rw [hj] at hf
            exact absurd hs hf
          · exact ⟨g, hg, hj⟩

/-- The encoded status keeps the bits that are referred to and clears the others. -/
theorem getLsbD_encode (references : List StatusBit) (status : Byte) (j : Nat) :
    (encode references status).getLsbD j = true ↔
      status.getLsbD j = true ∧ ∃ f ∈ references, f.bitIndex = j := by
  unfold encode
  rw [getLsbD_foldl_encode]
  simp

end StatusEncoder

/-! ## The ROM -/

/-- A microcode ROM: `size` control words. -/
structure MicrocodeRom where
  size : Nat
  data : Nat → ControlWord

namespace MicrocodeRom

def read (rom : MicrocodeRom) (address : Nat) : Except SimError ControlWord :=
  if rom.size ≤ address then
    .error (.romReadOutOfBounds "controller.instruction_memory.rom" address rom.size)
  else .ok (rom.data address)

end MicrocodeRom

structure InstructionMemory where
  controls : List Control
  statusBits : List StatusBit
  rom : MicrocodeRom

namespace InstructionMemory

/-- The ROM reaches to the largest key of the table, and holds one word when the table is empty. -/
def romSize (table : List (Nat × ControlWord)) : Nat :=
  table.foldl (fun maxAddress e => max maxAddress e.1) 0 + 1

def burn (table : List (Nat × ControlWord)) : Except SimError MicrocodeRom := do
  let size := romSize table
  table.forM fun e => throwIf (size ≤ e.1) (.microcodeKeyExceedsRom e.1 size)
  pure ⟨size, table.foldl (fun data e => Function.update data e.1 e.2) fun _ => 0⟩

def new (controlOrder : List Control) (program : MicrocodeProgram) :
    Except SimError InstructionMemory := do
  let controls ← ControlEncoder.init controlOrder program.controlPaths
  let statusBits ← StatusEncoder.init program.statusBits
  let rom ← burn program.table
  pure ⟨controls, statusBits, rom⟩

/-- `Lookup`: the controls of the word stored for an opcode, a step and an encoded status. -/
def lookup (m : InstructionMemory) (opcode step status : Byte) :
    Except SimError (List Control) := do
  let word ← m.rom.read (encodeKey ⟨opcode, step, status⟩)
  throwIf (m.controls.length < 128 ∧ word >>> m.controls.length ≠ 0) .controlWordOverflow
  ((List.range m.controls.length).filter fun i => word.getLsbD i).mapM
    (ControlEncoder.getControl m.controls)

theorem foldl_max_le (table : List (Nat × ControlWord)) (m : Nat) :
    m ≤ table.foldl (fun maxAddress e => max maxAddress e.1) m ∧
      ∀ e ∈ table, e.1 ≤ table.foldl (fun maxAddress e => max maxAddress e.1) m := by
  induction table generalizing m with
  | nil => exact ⟨le_refl m, fun e he => (by cases he)⟩
  | cons e table ih =>
      have h := ih (max m e.1)
      rw [List.foldl_cons]
      refine ⟨le_trans (le_max_left m e.1) h.1, ?_⟩
      intro x hx
      rcases List.mem_cons.mp hx with rfl | hx
      · exact le_trans (le_max_right m x.1) h.1
      · exact h.2 x hx

theorem lt_romSize {table : List (Nat × ControlWord)} {e : Nat × ControlWord} (h : e ∈ table) :
    e.1 < romSize table := by
  have hle := (foldl_max_le table 0).2 e h
  unfold romSize
  omega

/-- Burning never fails, because the ROM is as large as the largest key. -/
theorem burn_eq (table : List (Nat × ControlWord)) :
    burn table =
      .ok ⟨romSize table, table.foldl (fun data e => Function.update data e.1 e.2) fun _ => 0⟩ := by
  unfold burn
  rw [seq_eq_ok, forM_eq_ok]
  refine ⟨?_, rfl⟩
  intro e he
  rw [throwIf_eq_ok]
  have hlt := lt_romSize he
  omega

/-- A word of the ROM is the table's, and zero where the table has none. -/
theorem read_burn {table : List (Nat × ControlWord)} (ht : (table.map Prod.fst).Nodup)
    {rom : MicrocodeRom} (h : burn table = .ok rom) (address : Nat) :
    rom.size = romSize table ∧ rom.data address = (table.lookup address).getD 0 := by
  rw [burn_eq] at h
  cases h
  exact ⟨rfl, Table.foldl_update_eq table _ ht address⟩

/-- The controls whose bits a word sets, in the order of the controls. -/
def decode (word : ControlWord) : List Control :=
  cpuControls.filter fun c => word.getLsbD (controlIndex c)

theorem mem_decode {word : ControlWord} {c : Control} :
    c ∈ decode word ↔ word.getLsbD (controlIndex c) = true := by
  unfold decode
  rw [List.mem_filter]
  exact ⟨fun h => h.2, fun h => ⟨mem_cpuControls c, h⟩⟩

theorem mem_decode_encodeControls {controls : List Control} {c : Control} :
    c ∈ decode (encodeControls controls) ↔ c ∈ controls := by
  rw [mem_decode, getLsbD_encodeControls_control]

private theorem mapM_getControl (references : List Control) (l : List Nat)
    (h : ∀ i ∈ l, i < references.length) :
    ∃ cs, l.mapM (ControlEncoder.getControl references) = .ok cs ∧
      cs.map some = l.map fun i => references[i]? := by
  induction l with
  | nil => exact ⟨[], rfl, rfl⟩
  | cons i l ih =>
      rcases ih fun j hj => h j (List.mem_cons_of_mem _ hj) with ⟨cs, hcs, heq⟩
      have hi := List.getElem?_eq_getElem (h i List.mem_cons_self)
      refine ⟨references.get ⟨i, h i List.mem_cons_self⟩ :: cs, ?_, ?_⟩
      · rw [List.mapM_cons, hcs]
        unfold ControlEncoder.getControl
        rw [hi]
        rfl
      · rw [List.map_cons, List.map_cons, heq, hi]
        rfl

/-- A word without bits beyond the control table decodes to the controls it sets. -/
theorem lookup_of_word {m : InstructionMemory} (hm : m.controls = cpuControls) {key : MicrocodeKey}
    {word : ControlWord} (hread : m.rom.read (encodeKey key) = .ok word)
    (hword : ∀ i, word.getLsbD i = true → i < 95) :
    m.lookup key.opcode key.step key.status = .ok (decode word) := by
  unfold lookup
  rw [bind_eq_ok]
  refine ⟨word, hread, ?_⟩
  rw [hm, cpuControls_length, seq_eq_ok, throwIf_eq_ok]
  constructor
  · rintro ⟨-, hne⟩
    apply hne
    apply BitVec.eq_of_getLsbD_eq
    intro i _
    rw [BitVec.getLsbD_ushiftRight, show (0 : ControlWord).getLsbD i = false from
      BitVec.getLsbD_zero]
    by_contra hbit
    have hlt := hword (95 + i) (by simpa using hbit)
    omega
  · have hlt : ∀ i ∈ (List.range 95).filter fun i => word.getLsbD i, i < cpuControls.length := by
      intro i hi
      rw [cpuControls_length]
      exact List.mem_range.mp (List.mem_filter.mp hi).1
    rcases mapM_getControl cpuControls _ hlt with ⟨cs, hcs, heq⟩
    rw [hcs]
    congr 1
    -- both lists are the controls at the set bits, in increasing order of index
    have hall : cpuControls.map some = (List.range 95).map fun i => cpuControls[i]? := by
      decide +kernel
    apply List.map_injective_iff.mpr (Option.some_injective Control)
    rw [heq]
    have hdec : (decode word).map some =
        (cpuControls.map some).filter fun o => o.any fun c => word.getLsbD (controlIndex c) := by
      unfold decode
      rw [List.filter_map]
      rfl
    rw [hdec, hall, List.filter_map]
    refine congrArg _ (List.filter_congr ?_)
    intro i hi
    have hi' : i < cpuControls.length := by
      rw [cpuControls_length]
      exact List.mem_range.mp hi
    have hget := List.getElem?_eq_getElem hi'
    show _ = (cpuControls[i]?).any _
    rw [hget, Option.any_some, controlIndex_getElem hget]

/-! ## Programs of the compiler -/

section Compiled

variable {c : Compiler} {is ir : InstructionSet} {p : MicrocodeProgram} {m : InstructionMemory}

theorem new_eq_ok {controlOrder : List Control} (h : new controlOrder p = .ok m) :
    m.controls = controlOrder ∧ p.statusBits = m.statusBits.map (fun f => ⟨f.name, f.bitIndex⟩) ∧
      burn p.table = .ok m.rom := by
  rcases bind_eq_ok.mp h with ⟨controls, hc, h⟩
  rcases bind_eq_ok.mp h with ⟨statusBits, hs, h⟩
  rcases bind_eq_ok.mp h with ⟨rom, hr, h⟩
  cases h
  refine ⟨?_, StatusEncoder.init_eq_ok hs, hr⟩
  have hc := (seq_eq_ok.mp (seq_eq_ok.mp (seq_eq_ok.mp hc).2).2).2
  cases hc
  rfl

/-- The simulator accepts a compiled program whose status bits are the register's. -/
theorem exists_new (henc : c.encode ir = .ok p) {references : List StatusBit}
    (hlen : references.length ≤ 8)
    (hbits : c.statusEncoder.bits = references.map fun f => ⟨f.name, f.bitIndex⟩) :
    ∃ rom, new cpuControls p = .ok ⟨cpuControls, references, rom⟩ := by
  rcases encode_eq_ok.mp henc with ⟨-, -, hcp, hsb⟩
  unfold new
  rw [hcp, hsb, hbits]
  refine ⟨_, bind_eq_ok.mpr ⟨_, ControlEncoder.init_controlPaths, bind_eq_ok.mpr ⟨_,
    StatusEncoder.init_map hlen,
    bind_eq_ok.mpr ⟨_, burn_eq p.table, rfl⟩⟩⟩⟩

/-- The lookup of a key that a step was encoded under decodes to the step's controls. -/
theorem lookup_of_isEntry (henc : c.encode ir = .ok p) (hm : new cpuControls p = .ok m)
    {i : Instruction} {v : InstructionVariant} {k : Nat} {s : Step} {status : Byte}
    (he : IsEntry c.statusEncoder ir i v k s status) :
    m.lookup i.opcode (BitVec.ofNat 8 k) status = .ok (decode (encodeControls s.controls)) := by
  rcases new_eq_ok hm with ⟨hcontrols, -, hburn⟩
  have hlookup := Microcode.lookup_of_isEntry henc he
  have hrom := read_burn (nodup_table henc) hburn
    (encodeKey ⟨i.opcode, BitVec.ofNat 8 k, status⟩)
  refine @lookup_of_word m hcontrols ⟨i.opcode, BitVec.ofNat 8 k, status⟩ _ ?_ ?_
  · unfold MicrocodeRom.read
    have hlt := lt_romSize (Table.mem_of_lookup hlookup)
    rw [hrom.1, if_neg (by omega), hrom.2, hlookup]
    rfl
  · intro j hj
    rcases (getLsbD_encodeControls s.controls j).mp hj with ⟨d, -, rfl⟩
    exact controlIndex_lt d

/-- Every lookup that succeeds finds the controls of an encoded step, or none. -/
theorem lookup_eq_ok (henc : c.encode ir = .ok p) (hm : new cpuControls p = .ok m)
    {opcode step status : Byte} {controls : List Control}
    (h : m.lookup opcode step status = .ok controls) :
    controls = [] ∨ ∃ i v k s, IsEntry c.statusEncoder ir i v k s status ∧ i.opcode = opcode ∧
      BitVec.ofNat 8 k = step ∧ controls = decode (encodeControls s.controls) := by
  rcases new_eq_ok hm with ⟨hcontrols, -, hburn⟩
  have hrom := read_burn (nodup_table henc) hburn (encodeKey ⟨opcode, step, status⟩)
  cases hl : p.table.lookup (encodeKey ⟨opcode, step, status⟩) with
  | some word =>
      rcases isEntry_of_lookup henc hl with ⟨i, v, k, s, status', he, heq⟩
      unfold entry at heq
      have hkey := MicrocodeKey.mk.inj (encodeKey_injective (Prod.mk.inj heq).1)
      rcases hkey with ⟨rfl, rfl, rfl⟩
      rw [lookup_of_isEntry henc hm he] at h
      exact .inr ⟨i, v, k, s, he, rfl, rfl, (Except.ok.inj h).symm⟩
  | none =>
      rcases bind_eq_ok.mp h with ⟨word, hread, -⟩
      have hzero : word = 0 := by
        unfold MicrocodeRom.read at hread
        split at hread
        · cases hread
        · rw [hrom.2, hl] at hread
          exact (Except.ok.inj hread).symm
      subst hzero
      rw [lookup_of_word hcontrols hread (fun i hi => by simp at hi)] at h
      left
      rw [← Except.ok.inj h]
      unfold decode
      rw [List.filter_eq_nil_iff]
      intro d _
      simp

end Compiled

end InstructionMemory

end Irata2.Sim
