import Irata2.Microcode.Validation

/-!
# The compiled table

The encoder burns one entry for every instruction, variant, step and covered status.  On a
validated instruction set these entries never disagree, so the table holds each of them and
nothing else.
-/

namespace Irata2.Microcode

open Hdl Library

/-- The entries of one step, under every status of its variant. -/
def stepEntries (opcode : Byte) (statuses : List Byte) (s : Step × Nat) :
    List (Nat × ControlWord) :=
  statuses.map fun status =>
    (encodeKey ⟨opcode, BitVec.ofNat 8 s.2, status⟩, encodeControls s.1.controls)

def variantEntries (enc : StatusEncoder) (opcode : Byte) (v : InstructionVariant) :
    List (Nat × ControlWord) :=
  v.steps.zipIdx.flatMap (stepEntries opcode (enc.statusesOf v))

def instructionEntries (enc : StatusEncoder) (i : Instruction) : List (Nat × ControlWord) :=
  i.variants.flatMap (variantEntries enc i.opcode)

/-- A variant whose conditions and step indices the encoder accepts. -/
structure Encodable (enc : StatusEncoder) (v : InstructionVariant) : Prop where
  statuses : ∃ statuses, enc.expandPartial v.statusConditions = .ok statuses
  steps : v.steps.length ≤ 256

theorem emplaceWord_eq_ok (opcode : Byte) (step : Nat) (word : ControlWord)
    (table : Compiler.MicrocodeTable) (status : Byte) (table' : Compiler.MicrocodeTable) :
    Compiler.emplaceWord opcode step word table status = .ok table' ↔
      True ∧ Table.emplaceAll table
        [(encodeKey ⟨opcode, BitVec.ofNat 8 step, status⟩, word)] = some table' := by
  unfold Compiler.emplaceWord
  rw [true_and, Table.emplaceAll_singleton]
  cases Table.emplace table (encodeKey ⟨opcode, BitVec.ofNat 8 step, status⟩) word with
  | none => exact ⟨(fun h => by cases h), (fun h => by cases h)⟩
  | some t => exact ⟨fun h => congrArg some (Except.ok.inj h), fun h => congrArg _ (Option.some.inj h)⟩

theorem encodeStep_eq_ok (opcode : Byte) (statuses : List Byte) (table : Compiler.MicrocodeTable)
    (s : Step × Nat) (table' : Compiler.MicrocodeTable) :
    Compiler.encodeStep opcode statuses table s = .ok table' ↔
      s.2 ≤ 0xFF ∧ Table.emplaceAll table (stepEntries opcode statuses s) = some table' := by
  unfold Compiler.encodeStep stepEntries
  by_cases hs : 0xFF < s.2
  · rw [if_pos hs]
    constructor
    · intro h
      cases h
    · rintro ⟨h, -⟩
      omega
  · rw [if_neg hs, Table.foldlM_eq_ok_iff (emplaceWord_eq_ok opcode s.2 _), List.map_eq_flatMap]
    exact and_congr_left fun _ => ⟨fun _ => by omega, fun _ _ _ => trivial⟩

theorem encodeVariant_eq_ok (enc : StatusEncoder) (opcode : Byte)
    (table : Compiler.MicrocodeTable) (v : InstructionVariant)
    (table' : Compiler.MicrocodeTable) :
    Compiler.encodeVariant enc opcode table v = .ok table' ↔
      Encodable enc v ∧ Table.emplaceAll table (variantEntries enc opcode v) = some table' := by
  unfold Compiler.encodeVariant variantEntries
  rw [bind_eq_ok]
  have hidx : (∀ x ∈ v.steps.zipIdx, x.2 ≤ 0xFF) ↔ v.steps.length ≤ 256 := by
    rw [forall_mem_zipIdx v.steps fun _ k => k ≤ 0xFF]
    constructor
    · intro h
      by_contra hlen
      have hlt : 256 < v.steps.length := by omega
      have h256 := h 256 _ (List.getElem?_eq_getElem hlt)
      omega
    · intro h k s hk
      have hlt := (List.getElem?_eq_some_iff.mp hk).1
      omega
  constructor
  · rintro ⟨statuses, hs, h⟩
    rw [Table.foldlM_eq_ok_iff (encodeStep_eq_ok opcode statuses)] at h
    rw [StatusEncoder.statusesOf_eq hs]
    exact ⟨⟨⟨statuses, hs⟩, hidx.mp h.1⟩, h.2⟩
  · rintro ⟨⟨⟨statuses, hs⟩, hlen⟩, h⟩
    rw [StatusEncoder.statusesOf_eq hs] at h
    refine ⟨statuses, hs, ?_⟩
    rw [Table.foldlM_eq_ok_iff (encodeStep_eq_ok opcode statuses)]
    exact ⟨hidx.mpr hlen, h⟩

theorem encodeInstruction_eq_ok (enc : StatusEncoder) (table : Compiler.MicrocodeTable)
    (i : Instruction) (table' : Compiler.MicrocodeTable) :
    Compiler.encodeInstruction enc table i = .ok table' ↔
      (∀ v ∈ i.variants, Encodable enc v) ∧
        Table.emplaceAll table (instructionEntries enc i) = some table' :=
  Table.foldlM_eq_ok_iff (encodeVariant_eq_ok enc i.opcode) i.variants table table'

/-- What a successful encoding says about its input and its table. -/
theorem encode_eq_ok {c : Compiler} {is : InstructionSet} {p : MicrocodeProgram} :
    c.encode is = .ok p ↔
      (∀ i ∈ is.instructions, ∀ v ∈ i.variants, Encodable c.statusEncoder v) ∧
        Table.emplaceAll [] (is.instructions.flatMap (instructionEntries c.statusEncoder)) =
          some p.table ∧
        p.controlPaths = controlPaths ∧ p.statusBits = c.statusEncoder.bits := by
  unfold Compiler.encode
  rw [bind_eq_ok]
  constructor
  · rintro ⟨table, h, hp⟩
    rw [Table.foldlM_eq_ok_iff (encodeInstruction_eq_ok c.statusEncoder)] at h
    cases hp
    exact ⟨h.1, h.2, rfl, rfl⟩
  · rintro ⟨henc, ht, hc, hs⟩
    refine ⟨p.table, ?_, ?_⟩
    · rw [Table.foldlM_eq_ok_iff (encodeInstruction_eq_ok c.statusEncoder)]
      exact ⟨henc, ht⟩
    · rw [← hc, ← hs]
      rfl

/-- Where an entry comes from. -/
structure IsEntry (enc : StatusEncoder) (is : InstructionSet) (i : Instruction)
    (v : InstructionVariant) (k : Nat) (s : Step) (status : Byte) : Prop where
  instruction : i ∈ is.instructions
  variant : v ∈ i.variants
  step : v.steps[k]? = some s
  status : status ∈ enc.statusesOf v

def entry (i : Instruction) (k : Nat) (s : Step) (status : Byte) : Nat × ControlWord :=
  (encodeKey ⟨i.opcode, BitVec.ofNat 8 k, status⟩, encodeControls s.controls)

theorem mem_entries {enc : StatusEncoder} {is : InstructionSet} {e : Nat × ControlWord} :
    e ∈ is.instructions.flatMap (instructionEntries enc) ↔
      ∃ i v k s status, IsEntry enc is i v k s status ∧ e = entry i k s status := by
  unfold instructionEntries variantEntries stepEntries
  simp only [List.mem_flatMap, List.mem_map]
  constructor
  · rintro ⟨i, hi, v, hv, s, hs, status, hstatus, rfl⟩
    exact ⟨i, v, s.2, s.1, status, ⟨hi, hv, List.mem_zipIdx_iff_getElem?.mp hs, hstatus⟩, rfl⟩
  · rintro ⟨i, v, k, s, status, h, rfl⟩
    exact ⟨i, h.instruction, v, h.variant, (s, k), List.mem_zipIdx_iff_getElem?.mpr h.step, status,
      h.status, rfl⟩

/-- The table holds the word of every step under every status of its variant. -/
theorem lookup_of_isEntry {c : Compiler} {is : InstructionSet} {p : MicrocodeProgram}
    (h : c.encode is = .ok p) {i : Instruction} {v : InstructionVariant} {k : Nat} {s : Step}
    {status : Byte} (he : IsEntry c.statusEncoder is i v k s status) :
    p.table.lookup (encodeKey ⟨i.opcode, BitVec.ofNat 8 k, status⟩) =
      some (encodeControls s.controls) :=
  Table.lookup_of_emplaceAll (encode_eq_ok.mp h).2.1
    (mem_entries.mpr ⟨i, v, k, s, status, he, rfl⟩)

/-- The table holds nothing but the words of steps. -/
theorem isEntry_of_lookup {c : Compiler} {is : InstructionSet} {p : MicrocodeProgram}
    (h : c.encode is = .ok p) {key : Nat} {word : ControlWord}
    (hl : p.table.lookup key = some word) :
    ∃ i v k s status, IsEntry c.statusEncoder is i v k s status ∧
      (key, word) = entry i k s status := by
  rw [Table.lookup_emplaceAll (encode_eq_ok.mp h).2.1] at hl
  exact mem_entries.mp (Table.mem_of_lookup hl)

theorem nodup_table {c : Compiler} {is : InstructionSet} {p : MicrocodeProgram}
    (h : c.encode is = .ok p) : (p.table.map Prod.fst).Nodup :=
  Table.nodup_emplaceAll (encode_eq_ok.mp h).2.1 List.nodup_nil

/-- On an instruction set whose opcodes are distinct and whose variants share no status, the
encoder accepts every variant it can expand and index. -/
theorem exists_encode {c : Compiler} {is : InstructionSet}
    (hop : (is.instructions.map (·.opcode)).Nodup)
    (hst : ∀ i ∈ is.instructions, statusValidateInstruction c.statusEncoder i = .ok ())
    (henc : ∀ i ∈ is.instructions, ∀ v ∈ i.variants, Encodable c.statusEncoder v) :
    ∃ p, c.encode is = .ok p := by
  have hcons : Table.Consistent
      ([] ++ is.instructions.flatMap (instructionEntries c.statusEncoder)) := by
    intro key word word' hw hw'
    rcases mem_entries.mp hw with ⟨i, v, k, s, status, he, heq⟩
    rcases mem_entries.mp hw' with ⟨j, u, l, t, status', he', heq'⟩
    unfold entry at heq heq'
    have hk := (Prod.mk.inj heq).1.symm.trans (Prod.mk.inj heq').1
    have hkey := MicrocodeKey.mk.inj (encodeKey_injective hk)
    have hij : i = j := eq_of_opcode_eq hop he.instruction he'.instruction hkey.1
    subst hij
    have hvu : v = u := variant_eq_of_status (hst i he.instruction) he.variant he'.variant
      he.status (hkey.2.2 ▸ he'.status)
    subst hvu
    -- both step indices are below 256, so the byte in the key determines them
    have hklt := (List.getElem?_eq_some_iff.mp he.step).1
    have hllt := (List.getElem?_eq_some_iff.mp he'.step).1
    have hlen := (henc i he.instruction v he.variant).steps
    have hkl : k = l := by
      have hmod := congrArg BitVec.toNat hkey.2.1
      rw [BitVec.toNat_ofNat, BitVec.toNat_ofNat, Nat.mod_eq_of_lt (by omega),
        Nat.mod_eq_of_lt (by omega)] at hmod
      exact hmod
    subst hkl
    have hs : s = t := Option.some.inj (he.step.symm.trans he'.step)
    rw [(Prod.mk.inj heq).2, (Prod.mk.inj heq').2, hs]
  rcases Table.emplaceAll_isSome hcons with ⟨table, ht⟩
  exact ⟨⟨table, controlPaths, c.statusEncoder.bits⟩, encode_eq_ok.mpr ⟨henc, ht, rfl, rfl⟩⟩

end Irata2.Microcode
