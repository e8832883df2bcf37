import Irata2.Assembler.Acceptance
import Irata2.Sim.BranchTargets
import Irata2.Sim.Listing

/-!
# Assembling a listing

What the assembler makes of the disassembler's output.  It is the ROM again just when every entry is
faithful: its operand names an address of the listing, no shorter instruction is taken for it, and
a branch stays in the address space.
-/

namespace Irata2.Sim

open Isa Library Assembler

/-! ## Faithful entries -/

/-- The mode that the assembler tries first for a small address. -/
def zeroPageMode : AddressingMode → Option AddressingMode
  | .abs => some .zp
  | .abx => some .zpx
  | .aby => some .zpy
  | .imp | .imm | .ind | .izx | .izy | .zp | .zpx | .zpy | .rel => none

/-- The address in the operand bytes. -/
def operandWord (operands : List Byte) : Word :=
  Word.ofBytes (operands.tail.headD 0) (operands.headD 0)

/-- The address that an operand is printed for. -/
def target? (mode : AddressingMode) (operands : List Byte) (address : Word) : Option Word :=
  match mode with
  | .abs | .abx | .aby | .ind => some (operandWord operands)
  | .rel => some (address + 2 + (operands.headD 0).signExtend 16)
  | .imp | .imm | .zp | .zpx | .zpy | .izx | .izy => none

section Faithful

variable (labels : List (Word × Text)) (defined : Word → Bool)

/-- The assembler takes a shorter instruction. -/
def shortened (info : InstructionInfo) (operands : List Byte) : Bool :=
  match zeroPageMode info.addressingMode with
  | none => false
  | some mode =>
      (OrderedMap.find labels (operandWord operands)).isNone &&
        decide ((operandWord operands).toNat ≤ 0xFF) &&
        (findInstructionByMnemonicAndMode (toLower info.mnemonic.name.toList) mode).isSome

/-- The assembler gives an instruction its bytes again. -/
structure FaithfulCode (address : Word) (info : InstructionInfo) (operands : List Byte) : Prop where
  named : ∀ target ∈ target? info.addressingMode operands address,
    (OrderedMap.find labels target).isSome → defined target = true
  long : shortened labels info operands = false
  near : info.addressingMode = .rel →
    0 ≤ (address.toNat : Int) + 2 + (operands.headD 0).toInt ∧
      (address.toNat : Int) + 2 + (operands.headD 0).toInt ≤ 0xFFFF

instance (address : Word) (info : InstructionInfo) (operands : List Byte) :
    Decidable (FaithfulCode labels defined address info operands) :=
  decidable_of_iff
    ((∀ target ∈ target? info.addressingMode operands address,
        (OrderedMap.find labels target).isSome → defined target = true) ∧
      shortened labels info operands = false ∧
      (info.addressingMode = .rel → 0 ≤ (address.toNat : Int) + 2 + (operands.headD 0).toInt ∧
        (address.toNat : Int) + 2 + (operands.headD 0).toInt ≤ 0xFFFF))
    ⟨fun h => ⟨h.1, h.2.1, h.2.2⟩, fun h => ⟨h.named, h.long, h.near⟩⟩

/-- The assembler gives an entry its bytes again. -/
def Entry.Faithful (address : Word) : Entry → Prop
  | .data _ => True
  | .code info operands => FaithfulCode labels defined address info operands

instance (address : Word) : (e : Entry) → Decidable (e.Faithful labels defined address)
  | .data _ => isTrue trivial
  | .code info operands =>
      inferInstanceAs (Decidable (FaithfulCode labels defined address info operands))

end Faithful

/-! ## The instruction that the assembler selects -/

/-- No two instructions of a mode have one mnemonic. -/
theorem find_of_mem {i : InstructionInfo} (hi : i ∈ instructions) :
    findInstructionByMnemonicAndMode (toLower i.mnemonic.name.toList) i.addressingMode =
      some i := by
  have hall : ∀ i ∈ instructions, (instructions.find? fun inst =>
      decide (inst.addressingMode = i.addressingMode) && decide (toLower inst.mnemonic.name.toList =
        toLower (toLower i.mnemonic.name.toList))) = some i := by
    decide +kernel
  rw [← hall i hi]
  unfold findInstructionByMnemonicAndMode
  congr 1
  funext inst
  rw [← Bool.decide_and]
  exact decide_eq_decide.mpr and_comm

def branchMnemonics : List Mnemonic := [.beq, .bne, .bcs, .bcc, .bmi, .bpl, .bvs, .bvc]

/-- The assembler's list of branches is that of the instruction set. -/
theorem isRelativeMnemonic_of_mem {i : InstructionInfo} (hi : i ∈ instructions) :
    isRelativeMnemonic (toLower i.mnemonic.name.toList) = decide (i.addressingMode = .rel) := by
  have hname : ∀ m : Mnemonic, isRelativeMnemonic (toLower m.name.toList) =
      decide (m ∈ branchMnemonics) := by
    intro m
    cases m <;> decide
  have hall : ∀ i ∈ instructions,
      decide (i.mnemonic ∈ branchMnemonics) = decide (i.addressingMode = .rel) := by
    decide +kernel
  exact (hname i.mnemonic).trans (hall i hi)

section Select

variable {stmt : InstructionStmt} {mode : AddressingMode} {modes : List AddressingMode}
  {info : InstructionInfo}

/-- The first mode that the mnemonic has is taken. -/
theorem select_of_head (hcandidates : candidates stmt = .ok (mode :: modes))
    (hfind : findInstructionByMnemonicAndMode stmt.mnemonic mode = some info) :
    selectInstruction stmt = .ok info := by
  refine bind_eq_ok.mpr ⟨_, hcandidates, ?_⟩
  rw [List.findSome?_cons, hfind]
  rfl

theorem select_of_second {other : AddressingMode}
    (hcandidates : candidates stmt = .ok (other :: mode :: modes))
    (hother : findInstructionByMnemonicAndMode stmt.mnemonic other = none)
    (hfind : findInstructionByMnemonicAndMode stmt.mnemonic mode = some info) :
    selectInstruction stmt = .ok info := by
  refine bind_eq_ok.mpr ⟨_, hcandidates, ?_⟩
  rw [List.findSome?_cons, hother]
  simp only
  rw [List.findSome?_cons, hfind]
  rfl

end Select

section Code

variable (labels : List (Word × Text)) (info : InstructionInfo) (operands : List Byte)
  (address : Word)

/-- The instruction that the assembler reads in an entry. -/
def codeStatement : InstructionStmt :=
  { mnemonic := toLower info.mnemonic.name.toList
    operands := (operandOf labels info.addressingMode operands address).toList }

variable {labels info operands address}

/-- The modes for an operand without parentheses that is no branch target. -/
def plainModes (operand : Operand) : List AddressingMode :=
  if operand.immediate then [.imm]
  else
    match operand.indexRegister, operand.kind with
    | .x, .number => if operand.number.toNat ≤ 0xFF then [.zpx, .abx] else [.abx]
    | .x, .label => [.abx]
    | .y, .number => if operand.number.toNat ≤ 0xFF then [.zpy, .aby] else [.aby]
    | .y, .label => [.aby]
    | .none, .number => if operand.number.toNat ≤ 0xFF then [.zp, .abs] else [.abs]
    | .none, .label => [.abs, .zp]

theorem candidates_plain {stmt : InstructionStmt} {operand : Operand}
    (hoperand : stmt.operands = [operand]) (hrel : isRelativeMnemonic stmt.mnemonic = false)
    (hindirect : operand.indirect = false) : candidates stmt = .ok (plainModes operand) := by
  unfold candidates plainModes
  simp only [hoperand, hrel, hindirect, Bool.false_eq_true, if_false]
  cases operand.immediate with
  | true => rfl
  | false =>
      cases operand.indexRegister <;> cases operand.kind <;> simp

/-- The mode for an operand in parentheses. -/
def indirectMode : IndexRegister → AddressingMode
  | .x => .izx
  | .y => .izy
  | .none => .ind

theorem candidates_indirect {stmt : InstructionStmt} {operand : Operand}
    (hoperand : stmt.operands = [operand]) (hrel : isRelativeMnemonic stmt.mnemonic = false)
    (hindirect : operand.indirect = true) :
    candidates stmt = .ok [indirectMode operand.indexRegister] := by
  unfold candidates
  simp only [hoperand, hrel, hindirect, Bool.false_eq_true, if_false, if_true]
  cases operand.indexRegister <;> rfl

theorem candidates_relative {stmt : InstructionStmt} {operand : Operand}
    (hoperand : stmt.operands = [operand]) (hrel : isRelativeMnemonic stmt.mnemonic = true)
    (himmediate : operand.immediate = false) : candidates stmt = .ok [.rel] := by
  unfold candidates
  simp only [hoperand, hrel, himmediate, Bool.false_eq_true, if_false, if_true]

theorem toNat_setWidth_byte (b : Byte) : (b.setWidth 32).toNat = b.toNat := by
  rw [BitVec.toNat_setWidth]
  exact Nat.mod_eq_of_lt (by omega)

theorem toNat_setWidth_word (w : Word) : (w.setWidth 32).toNat = w.toNat := by
  rw [BitVec.toNat_setWidth]
  exact Nat.mod_eq_of_lt (by omega)

theorem indirect_targetOperand (labels : List (Word × Text)) (target : Word) :
    (targetOperand labels target).indirect = false := by
  unfold targetOperand
  split
  · rfl
  · rfl

theorem indexRegister_targetOperand (labels : List (Word × Text)) (target : Word) :
    (targetOperand labels target).indexRegister = .none := by
  unfold targetOperand
  split
  · rfl
  · rfl

/-- The modes that are tried first for an instruction. -/
def firstModes (labels : List (Word × Text)) (mode : AddressingMode) (target : Word) :
    List AddressingMode :=
  match zeroPageMode mode with
  | none => [mode]
  | some short =>
      if (OrderedMap.find labels target).isNone && decide (target.toNat ≤ 0xFF) then [short, mode]
      else [mode]

/-- The modes for a printed address. -/
theorem plainModes_target (labels : List (Word × Text)) (target : Word) :
    ∃ n x y, plainModes (targetOperand labels target) = firstModes labels .abs target ++ n ∧
      plainModes { targetOperand labels target with indexRegister := .x } =
        firstModes labels .abx target ++ x ∧
      plainModes { targetOperand labels target with indexRegister := .y } =
        firstModes labels .aby target ++ y := by
  unfold targetOperand firstModes
  cases OrderedMap.find labels target with
  | some name => exact ⟨[.zp], [], [], rfl, rfl, rfl⟩
  | none =>
      refine ⟨[], [], [], ?_⟩
      unfold plainModes
      simp only [toNat_setWidth_word, Option.isNone_none, Bool.true_and, decide_eq_true_eq,
        List.append_nil]
      exact ⟨rfl, rfl, rfl⟩

variable (labels operands address) in
/-- The assembler tries the mode of an instruction, and a short mode before it. -/
theorem candidates_code (hinfo : info ∈ instructions) :
    ∃ modes, candidates (codeStatement labels info operands address) =
      .ok (firstModes labels info.addressingMode (operandWord operands) ++ modes) := by
  have hops : ∀ mode, info.addressingMode = mode →
      (codeStatement labels info operands address).operands =
        (operandOf labels mode operands address).toList := by
    rintro _ rfl
    rfl
  have hrel : isRelativeMnemonic (codeStatement labels info operands address).mnemonic =
      decide (info.addressingMode = .rel) := isRelativeMnemonic_of_mem hinfo
  have hlow : (((operands.headD 0).setWidth 32 : BitVec 32).toNat ≤ 0xFF) := by
    rw [toNat_setWidth_byte]
    omega
  have hplain := indirect_targetOperand labels (operandWord operands)
  -- the candidates for the target of an operand that is not in parentheses
  obtain ⟨n, x, y, hnone, hx, hy⟩ := plainModes_target labels (operandWord operands)
  cases hmode : info.addressingMode with
  | imp =>
      refine ⟨[], ?_⟩
      unfold candidates
      rw [hops _ hmode]
      rfl
  | imm =>
      rw [hmode] at hrel
      exact ⟨[], candidates_plain (hops _ hmode) hrel rfl⟩
  | zp =>
      rw [hmode] at hrel
      refine ⟨[.abs], (candidates_plain (hops _ hmode) hrel rfl).trans ?_⟩
      exact congrArg Except.ok (if_pos hlow)
  | zpx =>
      rw [hmode] at hrel
      refine ⟨[.abx], (candidates_plain (hops _ hmode) hrel rfl).trans ?_⟩
      exact congrArg Except.ok (if_pos hlow)
  | zpy =>
      rw [hmode] at hrel
      refine ⟨[.aby], (candidates_plain (hops _ hmode) hrel rfl).trans ?_⟩
      exact congrArg Except.ok (if_pos hlow)
  | izx | izy =>
      rw [hmode] at hrel
      exact ⟨[], candidates_indirect (hops _ hmode) hrel rfl⟩
  | ind =>
      rw [hmode] at hrel
      refine ⟨[], (candidates_indirect (hops _ hmode) hrel rfl).trans ?_⟩
      exact congrArg (fun r => Except.ok [indirectMode r]) (indexRegister_targetOperand labels _)
  | rel =>
      rw [hmode] at hrel
      exact ⟨[], candidates_relative (hops _ hmode) hrel (immediate_targetOperand _)⟩
  | abs =>
      rw [hmode] at hrel
      exact ⟨n, (candidates_plain (hops _ hmode) hrel hplain).trans (congrArg Except.ok hnone)⟩
  | abx =>
      rw [hmode] at hrel
      exact ⟨x, (candidates_plain (hops _ hmode) hrel hplain).trans (congrArg Except.ok hx)⟩
  | aby =>
      rw [hmode] at hrel
      exact ⟨y, (candidates_plain (hops _ hmode) hrel hplain).trans (congrArg Except.ok hy)⟩

theorem zeroPageMode_ne {mode short : AddressingMode} (h : zeroPageMode mode = some short) :
    short ≠ mode := by
  cases mode with
  | abs | abx | aby =>
      cases h
      decide
  | imp | imm | ind | izx | izy | zp | zpx | zpy | rel => cases h

theorem zeroPageMode_operands_le {mode short : AddressingMode}
    (h : zeroPageMode mode = some short) : short.operands ≤ mode.operands := by
  cases mode with
  | abs | abx | aby =>
      cases h
      decide
  | imp | imm | ind | izx | izy | zp | zpx | zpy | rel => cases h

theorem findInstruction_some {mnemonic : Text} {mode : AddressingMode}
    (h : findInstructionByMnemonicAndMode mnemonic mode = some info) :
    info ∈ instructions ∧ info.addressingMode = mode := by
  have hfound := List.find?_some h
  exact ⟨List.mem_of_find?_eq_some h, (of_decide_eq_true hfound).2⟩

variable (labels operands address) in
/-- The assembler selects the instruction of an entry, or a shorter one. -/
theorem select_code (hinfo : info ∈ instructions) :
    (shortened labels info operands = false ∧
      selectInstruction (codeStatement labels info operands address) = .ok info) ∨
    (shortened labels info operands = true ∧ ∃ other,
      selectInstruction (codeStatement labels info operands address) = .ok other ∧
        other.opcode ≠ info.opcode ∧
        other.addressingMode.operands ≤ info.addressingMode.operands) := by
  obtain ⟨modes, hcandidates⟩ := candidates_code labels operands address hinfo
  have hfind : findInstructionByMnemonicAndMode
      (codeStatement labels info operands address).mnemonic info.addressingMode = some info :=
    find_of_mem hinfo
  unfold firstModes at hcandidates
  unfold shortened
  -- a mode with a zero page form may be shortened when its operand is read back
  cases hshort : zeroPageMode info.addressingMode with
  | none =>
      simp only [hshort] at hcandidates
      exact .inl ⟨rfl, select_of_head hcandidates hfind⟩
  | some short =>
      simp only [hshort] at hcandidates
      cases hsmall : (OrderedMap.find labels (operandWord operands)).isNone &&
          decide ((operandWord operands).toNat ≤ 0xFF) with
      | false =>
          simp only [hsmall] at hcandidates
          exact .inl ⟨rfl, select_of_head hcandidates hfind⟩
      | true =>
          simp only [hsmall] at hcandidates
          cases hother : findInstructionByMnemonicAndMode
              (toLower info.mnemonic.name.toList) short with
          | none =>
              refine .inl ⟨?_, select_of_second hcandidates hother hfind⟩
              simp only [hother]
              rfl
          | some other =>
              obtain ⟨hmem, hmode⟩ := findInstruction_some hother
              refine .inr ⟨?_, other, select_of_head hcandidates hother, ?_,
                hmode ▸ zeroPageMode_operands_le hshort⟩
              · simp only [hother]
                rfl
              · -- an opcode is that of one instruction only
                intro hopcode
                have hsame := getInstruction_opcode hmem
                rw [hopcode, getInstruction_opcode hinfo] at hsame
                cases hsame
                exact zeroPageMode_ne hshort hmode.symm

end Code

/-! ## What an entry is assembled to -/

/-- The assembler knows the labels of the listing. -/
structure Means (labels : List (Word × Text)) (defined : Word → Bool)
    (value : Operand → Option Nat) : Prop where
  number : ∀ operand, operand.kind = .number → value operand = some operand.number.toNat
  label : ∀ operand target, operand.kind = .label →
    OrderedMap.find labels target = some operand.label →
      value operand = if defined target then some target.toNat else none

section Encode

variable {labels : List (Word × Text)} {defined : Word → Bool} {value : Operand → Option Nat}
  {info : InstructionInfo} {operands : List Byte} {mode : AddressingMode} {address : Word}

/-- An address means itself, unless its label is missing. -/
theorem Means.target (h : Means labels defined value) {operand : Operand} {target : Word}
    (hkind : operand.kind = (targetOperand labels target).kind)
    (hlabel : operand.label = (targetOperand labels target).label)
    (hnumber : operand.number = (targetOperand labels target).number) :
    value operand = if (OrderedMap.find labels target).isSome && !defined target then none
      else some target.toNat := by
  unfold targetOperand at hkind hlabel hnumber
  cases hfind : OrderedMap.find labels target with
  | none =>
      simp only [hfind] at hkind hnumber
      rw [h.number operand hkind, hnumber, toNat_setWidth_word]
      rfl
  | some name =>
      simp only [hfind] at hkind hlabel
      rw [h.label operand target hkind (hfind.trans (congrArg some hlabel.symm))]
      cases defined target <;> rfl

/-- An operand without an address means its byte. -/
theorem Means.operand_byte (h : Means labels defined value) {operand : Operand}
    (hoperand : operandOf labels mode operands address = some operand)
    (htarget : target? mode operands address = none) :
    value operand = some (operands.headD 0).toNat := by
  cases mode with
  | imp => cases hoperand
  | imm | zp | zpx | zpy | izx | izy =>
      cases hoperand
      rw [h.number _ rfl, toNat_setWidth_byte]
  | abs | abx | aby | ind | rel => cases htarget

theorem Means.operand_target (h : Means labels defined value) {operand : Operand} {target : Word}
    (hoperand : operandOf labels mode operands address = some operand)
    (htarget : target? mode operands address = some target) :
    value operand = if (OrderedMap.find labels target).isSome && !defined target then none
      else some target.toNat := by
  cases mode with
  | imp | imm | zp | zpx | zpy | izx | izy => cases htarget
  | abs | abx | aby | ind | rel =>
      cases hoperand
      cases htarget
      exact h.target rfl rfl rfl

theorem exists_operandOf (hmode : mode.operands ≠ 0) :
    ∃ operand, operandOf labels mode operands address = some operand := by
  cases mode with
  | imp => exact absurd rfl hmode
  | imm | zp | zpx | zpy | izx | izy | abs | abx | aby | ind | rel => exact ⟨_, rfl⟩

theorem target_of_word (hmode : mode.operands = 2) :
    target? mode operands address = some (operandWord operands) := by
  cases mode with
  | abs | abx | aby | ind => rfl
  | imp | imm | zp | zpx | zpy | izx | izy | rel => cases hmode

theorem target_of_byte (hmode : mode.operands = 1) (hrel : mode ≠ .rel) :
    target? mode operands address = none := by
  cases mode with
  | abs | abx | aby | ind => cases hmode
  | rel => exact absurd rfl hrel
  | imp | imm | zp | zpx | zpy | izx | izy => rfl

theorem target_of_implied (hmode : mode.operands = 0) : target? mode operands address = none := by
  cases mode with
  | imp => rfl
  | imm | zp | zpx | zpy | izx | izy | abs | abx | aby | ind | rel => cases hmode

/-- The first byte of an instruction is the opcode of what is selected. -/
theorem head_of_encodes {a : Nat} {stmt : InstructionStmt} {bytes : List Byte}
    (h : Encodes value a (.instruction stmt) bytes) (hinfo : selectInstruction stmt = .ok info) :
    bytes.head? = some info.opcode := by
  cases h with
  | implied h =>
      cases hinfo.symm.trans h
      rfl
  | byte h =>
      cases hinfo.symm.trans h
      rfl
  | relative h =>
      cases hinfo.symm.trans h
      rfl
  | word h =>
      cases hinfo.symm.trans h
      rfl

/-- A named address that means something is that of a label of the listing. -/
theorem named_of_value {target : Word} {v : Nat}
    (h : (if (OrderedMap.find labels target).isSome && !defined target then none
      else some target.toNat) = some v) :
    v = target.toNat ∧ ((OrderedMap.find labels target).isSome → defined target = true) := by
  by_cases hmissing : ((OrderedMap.find labels target).isSome && !defined target) = true
  · rw [if_pos hmissing] at h
    cases h
  · rw [if_neg hmissing] at h
    refine ⟨(Option.some.inj h).symm, fun hnamed => ?_⟩
    rw [hnamed, Bool.true_and, Bool.not_eq_true', Bool.not_eq_false] at hmissing
    exact hmissing

theorem value_of_named {target : Word}
    (h : (OrderedMap.find labels target).isSome → defined target = true) :
    (if (OrderedMap.find labels target).isSome && !defined target then none
      else some target.toNat) = some target.toNat := by
  apply if_neg
  rw [Bool.and_eq_true, Bool.not_eq_true']
  rintro ⟨hnamed, hmissing⟩
  rw [h hnamed] at hmissing
  cases hmissing

/-- The target of a branch that does not leave the address space. -/
theorem exists_branch (low : Byte) (hlow : 0 ≤ (address.toNat : Int) + 2 + low.toInt)
    (hhigh : (address.toNat : Int) + 2 + low.toInt ≤ 0xFFFF) :
    ∃ v : Nat, (v : Int) = address.toNat + 2 + low.toInt ∧ v ≤ 0xFFFF ∧
      (address + 2 + low.signExtend 16).toNat = v := by
  obtain ⟨v, hv⟩ := Int.eq_ofNat_of_zero_le hlow
  refine ⟨v, hv.symm, by omega, ?_⟩
  have hmax : low.toInt ≤ 127 := Int.le_of_lt_add_one BitVec.toInt_lt
  have hdisplaced := add_displacement hv.symm (BitVec.le_toInt low) hmax
  rw [BitVec.ofInt_toInt] at hdisplaced
  rw [hdisplaced, BitVec.toNat_ofNat]
  exact Nat.mod_eq_of_lt (by omega)

theorem eq_singleton_of_length {l : List Byte} (h : l.length = 1) : l = [l.headD 0] := by
  obtain ⟨b, rfl⟩ := List.length_eq_one_iff.mp h
  rfl

theorem eq_pair_of_length {l : List Byte} (h : l.length = 2) :
    l = [l.headD 0, l.tail.headD 0] := by
  obtain ⟨b, c, rfl⟩ := List.length_eq_two.mp h
  rfl

theorem bytes_operandWord (opcode : Byte) :
    [opcode, BitVec.ofNat 8 ((operandWord operands).toNat % 256),
      BitVec.ofNat 8 ((operandWord operands).toNat / 256)] =
      [opcode, operands.headD 0, operands.tail.headD 0] := by
  have hlow := (operands.headD 0).isLt
  have hword : (operandWord operands).toNat =
      (operands.tail.headD 0).toNat * 256 + (operands.headD 0).toNat := Word.toNat_ofBytes _ _
  have hmod : (operandWord operands).toNat % 256 = (operands.headD 0).toNat := by omega
  have hdiv : (operandWord operands).toNat / 256 = (operands.tail.headD 0).toNat := by omega
  rw [hmod, hdiv, BitVec.ofNat_toNat, BitVec.ofNat_toNat, BitVec.setWidth_eq, BitVec.setWidth_eq]

theorem toInt_ofInt_byte {d : Int} (hlow : -128 ≤ d) (hhigh : d ≤ 127) :
    (BitVec.ofInt 8 d).toInt = d := by
  rw [BitVec.toInt_ofInt]
  apply Int.bmod_eq_of_le
  · omega
  · omega

variable {a : Nat}

theorem toNat_address (ha : a < 2 ^ 16) : (BitVec.ofNat 16 a).toNat = a := by
  rw [BitVec.toNat_ofNat]
  exact Nat.mod_eq_of_lt ha

/-- A faithful instruction is assembled to its bytes. -/
theorem encodes_of_faithful (h : Means labels defined value) (ha : a < 2 ^ 16)
    (hinfo : info ∈ instructions) (hlength : operands.length = info.addressingMode.operands)
    (hfaithful : FaithfulCode labels defined (BitVec.ofNat 16 a) info operands) :
    Encodes value a (.instruction (codeStatement labels info operands (BitVec.ofNat 16 a)))
      (info.opcode :: operands) := by
  have haddress := toNat_address ha
  obtain ⟨-, hselect⟩ | ⟨hshort, -⟩ := select_code labels operands (BitVec.ofNat 16 a) hinfo
  · -- the printed operand is read back with the mode it was printed for
    have hoperands : ∀ operand,
        operandOf labels info.addressingMode operands (BitVec.ofNat 16 a) = some operand →
        (codeStatement labels info operands (BitVec.ofNat 16 a)).operands = operand :: [] := by
      intro operand hoperand
      exact congrArg Option.toList hoperand
    by_cases hzero : info.addressingMode.operands = 0
    · have hbytes : info.opcode :: operands = [info.opcode] :=
        congrArg (info.opcode :: ·) (List.eq_nil_of_length_eq_zero (hlength.trans hzero))
      rw [hbytes]
      exact .implied hselect hzero
    obtain ⟨operand, hoperand⟩ := exists_operandOf hzero
    by_cases hrel : info.addressingMode = .rel
    · have hbytes : info.opcode :: operands = [info.opcode, operands.headD 0] :=
        congrArg (info.opcode :: ·) (eq_singleton_of_length (hlength.trans (congrArg _ hrel)))
      have htarget : target? info.addressingMode operands (BitVec.ofNat 16 a) =
          some (BitVec.ofNat 16 a + 2 + (operands.headD 0).signExtend 16) := by
        rw [hrel]
        rfl
      have hvalue := h.operand_target hoperand htarget
      rw [value_of_named (hfaithful.named _ htarget)] at hvalue
      -- a branch is printed by its target, which must be in reach without a wrap
      obtain ⟨hleft, hright⟩ := hfaithful.near hrel
      obtain ⟨v, hv, hle, hbranch⟩ := exists_branch _ hleft hright
      rw [hbranch] at hvalue
      rw [haddress] at hv
      have hencodes := Encodes.relative hselect hrel (hoperands _ hoperand) hvalue hle hv
        (BitVec.le_toInt _) (Int.le_of_lt_add_one BitVec.toInt_lt)
      rw [BitVec.ofInt_toInt] at hencodes
      rw [hbytes]
      exact hencodes
    · have hle := operands_le info.addressingMode
      obtain hone | htwo : info.addressingMode.operands = 1 ∨ info.addressingMode.operands = 2 := by
        omega
      · have hvalue := h.operand_byte hoperand (target_of_byte hone hrel)
        have hbytes : info.opcode :: operands = [info.opcode, operands.headD 0] :=
          congrArg (info.opcode :: ·) (eq_singleton_of_length (hlength.trans hone))
        have hencodes : Encodes value a _ _ := .byte hselect hone hrel (hoperands _ hoperand) hvalue
          (Nat.le_of_lt_succ (operands.headD 0).isLt)
        rw [BitVec.ofNat_toNat, BitVec.setWidth_eq] at hencodes
        rw [hbytes]
        exact hencodes
      · have htarget : target? info.addressingMode operands (BitVec.ofNat 16 a) =
            some (operandWord operands) := target_of_word htwo
        have hvalue := h.operand_target hoperand htarget
        rw [value_of_named (hfaithful.named _ htarget)] at hvalue
        have hbytes : info.opcode :: operands =
            [info.opcode, operands.headD 0, operands.tail.headD 0] :=
          congrArg (info.opcode :: ·) (eq_pair_of_length (hlength.trans htwo))
        have hencodes : Encodes value a _ _ := .word hselect htwo (hoperands _ hoperand) hvalue
          (Nat.le_of_lt_succ (operandWord operands).isLt)
        rw [bytes_operandWord] at hencodes
        rw [hbytes]
        exact hencodes
  · -- a word below 256 would have been read back as a zero page address
    rw [hfaithful.long] at hshort
    cases hshort

/-- An instruction that is assembled to its bytes is faithful. -/
theorem faithful_of_encodes (h : Means labels defined value) (ha : a < 2 ^ 16)
    (hinfo : info ∈ instructions)
    (hencodes : Encodes value a
      (.instruction (codeStatement labels info operands (BitVec.ofNat 16 a)))
      (info.opcode :: operands)) :
    FaithfulCode labels defined (BitVec.ofNat 16 a) info operands := by
  have haddress := toNat_address ha
  obtain ⟨hlong, hselect⟩ | ⟨-, other, hother, hne, -⟩ :=
    select_code labels operands (BitVec.ofNat 16 a) hinfo
  · have hoperand : ∀ {operand : Operand} {rest : List Operand},
        (codeStatement labels info operands (BitVec.ofNat 16 a)).operands = operand :: rest →
          operandOf labels info.addressingMode operands (BitVec.ofNat 16 a) = some operand := by
      intro operand rest hlist
      apply Option.mem_toList.mp
      show operand ∈ (codeStatement labels info operands (BitVec.ofNat 16 a)).operands
      rw [hlist]
      exact List.mem_cons_self
    have hnamed : ∀ {operand : Operand} {rest : List Operand} {v : Nat},
        (codeStatement labels info operands (BitVec.ofNat 16 a)).operands = operand :: rest →
          value operand = some v → ∀ target ∈
            target? info.addressingMode operands (BitVec.ofNat 16 a),
              (OrderedMap.find labels target).isSome → defined target = true := by
      intro operand rest v hlist hvalue target htarget
      rw [h.operand_target (hoperand hlist) htarget] at hvalue
      exact (named_of_value hvalue).2
    generalize hbytes : info.opcode :: operands = bytes at hencodes
    cases hencodes with
    | implied hinfo' hzero =>
        cases hselect.symm.trans hinfo'
        refine ⟨fun target htarget => ?_, hlong, fun hrel => ?_⟩
        · rw [target_of_implied hzero] at htarget
          cases htarget
        · rw [hrel] at hzero
          cases hzero
    | byte hinfo' _ hrel hlist hvalue =>
        cases hselect.symm.trans hinfo'
        exact ⟨hnamed hlist hvalue, hlong, fun h => absurd h hrel⟩
    | relative hinfo' _ hlist hvalue hv hd hlow hhigh =>
        cases hselect.symm.trans hinfo'
        refine ⟨hnamed hlist hvalue, hlong, fun _ => ?_⟩
        rw [haddress, (List.cons.inj hbytes).2, List.headD_cons, toInt_ofInt_byte hlow hhigh]
        omega
    | word hinfo' htwo hlist hvalue =>
        cases hselect.symm.trans hinfo'
        refine ⟨hnamed hlist hvalue, hlong, fun hrel => ?_⟩
        rw [hrel] at htwo
        cases htwo
  · have hhead := head_of_encodes hencodes hother
    rw [List.head?_cons] at hhead
    exact absurd (Option.some.inj hhead).symm hne

/-- An entry is faithful just when it is assembled to its bytes. -/
theorem encodes_entry_iff (h : Means labels defined value) (ha : a < 2 ^ 16) {e : Entry}
    (he : e.Complete) : Encodes value a (e.statement labels (BitVec.ofNat 16 a)) e.bytes ↔
      e.Faithful labels defined (BitVec.ofNat 16 a) := by
  cases he with
  | data opcode =>
      refine ⟨fun _ => trivial, fun _ => .bytes rfl (.cons ⟨opcode.toNat, ?_, ?_, ?_⟩ .nil)⟩
      · rw [h.number _ rfl, toNat_setWidth_byte]
      · exact Nat.le_of_lt_succ opcode.isLt
      · rw [BitVec.ofNat_toNat, BitVec.setWidth_eq]
  | code hinfo hlength =>
      exact ⟨faithful_of_encodes h ha hinfo, encodes_of_faithful h ha hinfo hlength⟩

theorem size_of_select {stmt : InstructionStmt} (h : selectInstruction stmt = .ok info) :
    Statement.size (.instruction stmt) = 1 + info.addressingMode.operands := by
  unfold Statement.size
  simp only [h]

/-- What an entry is assembled to is not longer than the entry. -/
theorem size_entry_le {e : Entry} (he : e.Complete) :
    (e.statement labels address).size ≤ e.bytes.length := by
  cases he with
  | data opcode => exact Nat.le_refl 1
  | @code info operands hinfo hlength =>
      show Statement.size (.instruction (codeStatement labels info operands address)) ≤
        operands.length + 1
      obtain ⟨-, hselect⟩ | ⟨-, other, hselect, -, hle⟩ := select_code labels operands address hinfo
      · rw [size_of_select hselect]
        omega
      · rw [size_of_select hselect]
        omega

/-- An entry that is assembled to its first byte is as long as the bytes. -/
theorem size_of_head {e : Entry} (he : e.Complete) {bytes : List Byte}
    (h : Encodes value a (e.statement labels address) bytes) (hhead : bytes.head? = e.bytes.head?) :
    (e.statement labels address).size = e.bytes.length := by
  cases he with
  | data opcode => rfl
  | @code info operands hinfo hlength =>
      show Statement.size (.instruction (codeStatement labels info operands address)) =
        operands.length + 1
      obtain ⟨-, hselect⟩ | ⟨-, other, hselect, hne, -⟩ := select_code labels operands address hinfo
      · rw [size_of_select hselect]
        omega
      · -- a shorter instruction has another opcode
        have hother := head_of_encodes h hselect
        exact absurd (Option.some.inj (hother.symm.trans hhead)) hne

theorem next_entry (e : Entry) :
    (e.statement labels address).next a = a + (e.statement labels address).size := by
  cases e with
  | data | code => rfl

theorem symbol_entry (e : Entry) : (e.statement labels address).symbol? a = none := by
  cases e with
  | data | code => rfl

theorem name_entry (e : Entry) : (e.statement labels address).name? = none := by
  cases e with
  | data | code => rfl

end Encode

/-! ## The layout of a listing -/

section Layout

variable (labels : List (Word × Text)) (options : DisassembleOptions)

/-- The statements of the lines of entries. -/
def entryStatements (a : Nat) (es : List Entry) : List Statement :=
  ((addressed a es).flatMap (entryLines labels options)).map (SourceLine.statement labels)

/-- The statements of a listing. -/
def listing (rom : List Byte) : List Statement :=
  (sourceLines labels options rom).map (SourceLine.statement labels)

/-- An entry is assembled to as many bytes as it has. -/
def Fits (p : Nat × Entry) : Prop :=
  (p.2.statement labels (BitVec.ofNat 16 p.1)).size = p.2.bytes.length

/-- The labels of an address, as statements. -/
def labelStatements (address : Word) : List Statement :=
  (labelLines labels options address).map (SourceLine.statement labels)

theorem entryStatements_cons (a : Nat) (e : Entry) (rest : List Entry) :
    entryStatements labels options a (e :: rest) =
      labelStatements labels options (BitVec.ofNat 16 a) ++
        e.statement labels (BitVec.ofNat 16 a) ::
          entryStatements labels options (a + e.bytes.length) rest := by
  unfold entryStatements labelStatements entryLines
  rw [addressed_cons, List.flatMap_cons, List.map_append, List.map_append, List.append_assoc]
  rfl

theorem labelStatements_cases (address : Word) :
    labelStatements labels options address = [] ∨
      ∃ name, options.emitLabels = true ∧ OrderedMap.find labels address = some name ∧
        labelStatements labels options address = [.label ⟨name, {}⟩] := by
  unfold labelStatements labelLines
  cases options.emitLabels with
  | false => exact .inl rfl
  | true =>
      cases OrderedMap.find labels address with
      | none => exact .inl rfl
      | some name => exact .inr ⟨name, rfl, rfl, rfl⟩

theorem mem_labelStatements {address : Word} {stmt : Statement}
    (h : stmt ∈ labelStatements labels options address) :
    ∃ name, options.emitLabels = true ∧ OrderedMap.find labels address = some name ∧
      stmt = .label ⟨name, {}⟩ := by
  obtain hnone | ⟨name, hemit, hfind, hsome⟩ := labelStatements_cases labels options address
  · rw [hnone] at h
    cases h
  · rw [hsome] at h
    exact ⟨name, hemit, hfind, List.mem_singleton.mp h⟩

theorem placed_labels (a : Nat) (address : Word) (rest : List Statement) :
    placed a (labelStatements labels options address ++ rest) =
      (labelStatements labels options address).map (a, ·) ++ placed a rest := by
  obtain h | ⟨name, -, -, h⟩ := labelStatements_cases labels options address
  · rw [h]
    rfl
  · rw [h]
    rfl

theorem placed_entry (a : Nat) (e : Entry) (rest : List Statement) :
    placed a (e.statement labels (BitVec.ofNat 16 a) :: rest) =
      (a, e.statement labels (BitVec.ofNat 16 a)) ::
        placed (a + (e.statement labels (BitVec.ofNat 16 a)).size) rest := by
  rw [← next_entry]
  rfl

/-- Every line is placed at the address that it is printed for, when every entry keeps its size. -/
theorem placed_entryStatements {a : Nat} {es : List Entry}
    (h : ∀ p ∈ addressed a es, Fits labels p) :
    placed a (entryStatements labels options a es) = (addressed a es).flatMap fun p =>
      (labelStatements labels options (BitVec.ofNat 16 p.1)).map (p.1, ·) ++
        [(p.1, p.2.statement labels (BitVec.ofNat 16 p.1))] := by
  induction es generalizing a with
  | nil => rfl
  | cons e rest ih =>
      rw [addressed_cons, List.forall_mem_cons] at h
      have hfits : (e.statement labels (BitVec.ofNat 16 a)).size = e.bytes.length := h.1
      rw [entryStatements_cons, placed_labels, placed_entry, hfits, ih h.2, addressed_cons,
        List.flatMap_cons, List.append_assoc]
      rfl

theorem mem_entryStatements {a : Nat} {es : List Entry} {stmt : Statement}
    (h : stmt ∈ entryStatements labels options a es) : ∃ p ∈ addressed a es,
      stmt ∈ labelStatements labels options (BitVec.ofNat 16 p.1) ∨
        stmt = p.2.statement labels (BitVec.ofNat 16 p.1) := by
  obtain ⟨line, hline, rfl⟩ := List.mem_map.mp h
  obtain ⟨p, hp, hline⟩ := List.mem_flatMap.mp hline
  refine ⟨p, hp, ?_⟩
  obtain hlabel | hentry := List.mem_append.mp hline
  · exact .inl (List.mem_map_of_mem hlabel)
  · rw [List.mem_singleton.mp hentry]
    exact .inr rfl

/-- No statement of an entry or a label moves the address. -/
theorem next_entryStatements {a : Nat} {es : List Entry} {stmt : Statement}
    (h : stmt ∈ entryStatements labels options a es) (b : Nat) : stmt.next b = b + stmt.size := by
  obtain ⟨p, -, hlabel | rfl⟩ := mem_entryStatements labels options h
  · obtain ⟨name, -, -, rfl⟩ := mem_labelStatements labels options hlabel
    rfl
  · exact next_entry p.2

theorem size_entryStatements_le {a : Nat} {es : List Entry} (h : ∀ e ∈ es, e.Complete) :
    ((entryStatements labels options a es).map Statement.size).sum ≤
      (es.flatMap Entry.bytes).length := by
  induction es generalizing a with
  | nil => exact Nat.le_refl 0
  | cons e rest ih =>
      have hhead : (e.statement labels (BitVec.ofNat 16 a)).size ≤ e.bytes.length :=
        size_entry_le (h e List.mem_cons_self)
      have hrest := ih (a := a + e.bytes.length) fun e he => h e (List.mem_cons_of_mem _ he)
      have hlabels : ((labelStatements labels options (BitVec.ofNat 16 a)).map
          Statement.size).sum = 0 := by
        obtain hnone | ⟨name, -, -, hsome⟩ :=
          labelStatements_cases labels options (BitVec.ofNat 16 a)
        · rw [hnone]
          rfl
        · rw [hsome]
          rfl
      rw [entryStatements_cons, List.map_append, List.sum_append, List.map_cons, List.sum_cons,
        List.flatMap_cons, List.length_append]
      omega

theorem emitted_eq {a : Nat} {statements : List Statement}
    (h : ∀ stmt ∈ statements, ∀ b, stmt.next b = b + stmt.size) :
    emitted a statements =
      (List.range (statements.map Statement.size).sum).map fun i => BitVec.ofNat 16 (a + i) := by
  induction statements generalizing a with
  | nil => rfl
  | cons stmt rest ih =>
      have hnext := h stmt List.mem_cons_self a
      have hrest := ih (a := a + stmt.size) fun s hs => h s (List.mem_cons_of_mem _ hs)
      have hcons : emitted a (stmt :: rest) =
          addressesOf (a, stmt) ++ emitted (stmt.next a) rest := rfl
      rw [hcons, hnext, hrest, List.map_cons, List.sum_cons, List.range_add, List.map_append,
        List.map_map]
      congr 2
      funext i
      exact congrArg (BitVec.ofNat 16) (Nat.add_assoc ..)

/-- Statements that follow one another in the address space emit to distinct addresses. -/
theorem nodup_emitted {a : Nat} {statements : List Statement}
    (h : ∀ stmt ∈ statements, ∀ b, stmt.next b = b + stmt.size)
    (hspace : a + (statements.map Statement.size).sum ≤ 2 ^ 16) :
    (emitted a statements).Nodup := by
  rw [emitted_eq h]
  refine List.nodup_range.map_on ?_
  intro i hi j hj hsame
  rw [List.mem_range] at hi hj
  have hnat := congrArg BitVec.toNat hsame
  rw [BitVec.toNat_ofNat, BitVec.toNat_ofNat, Nat.mod_eq_of_lt (by omega),
    Nat.mod_eq_of_lt (by omega)] at hnat
  omega

theorem size_entry_pos {e : Entry} (he : e.Complete) (address : Word) :
    0 < (e.statement labels address).size := by
  cases he with
  | data opcode => exact Nat.one_pos
  | @code info operands hinfo hlength =>
      show 0 < Statement.size (.instruction (codeStatement labels info operands address))
      obtain ⟨-, hselect⟩ | ⟨-, other, hselect, -⟩ := select_code labels operands address hinfo
      · rw [size_of_select hselect]
        omega
      · rw [size_of_select hselect]
        omega

/-- Where the bytes of the ROM come out again, every entry keeps its size. -/
theorem fits_of_bytes {origin a : Nat} {es : List Entry} {rom : List Byte}
    {value : Operand → Option Nat} (hle : origin ≤ a) (hcomplete : ∀ e ∈ es, e.Complete)
    (hrom : rom.drop (a - origin) = es.flatMap Entry.bytes)
    (h : ∀ b stmt, (b, stmt) ∈ placed a (entryStatements labels options a es) →
      ∃ bytes, Encodes value b stmt bytes ∧
        ∀ i (hi : i < bytes.length), rom[b - origin + i]? = some bytes[i]) :
    ∀ p ∈ addressed a es, Fits labels p := by
  induction es generalizing a with
  | nil =>
      intro p hp
      cases hp
  | cons e rest ih =>
      have he := hcomplete e List.mem_cons_self
      rw [entryStatements_cons, placed_labels, placed_entry] at h
      obtain ⟨bytes, hencodes, hbytes⟩ := h a (e.statement labels (BitVec.ofNat 16 a))
        (List.mem_append_right _ List.mem_cons_self)
      have hpos : 0 < bytes.length := by
        rw [hencodes.length]
        exact size_entry_pos labels he _
      have hfits : (e.statement labels (BitVec.ofNat 16 a)).size = e.bytes.length := by
        apply size_of_head he hencodes
        have hfirst := hbytes 0 hpos
        have hne : e.bytes ≠ [] := List.ne_nil_of_length_pos e.length_pos
        rw [Nat.add_zero, ← List.head?_drop, hrom, List.flatMap_cons,
          List.head?_append_of_ne_nil _ hne] at hfirst
        rw [hfirst, List.head?_eq_getElem?, List.getElem?_eq_getElem hpos]
      rw [addressed_cons, List.forall_mem_cons]
      rw [hfits] at h
      refine ⟨hfits, ih (by omega) (fun e he => hcomplete e (List.mem_cons_of_mem _ he)) ?_ ?_⟩
      · have hoff : a + e.bytes.length - origin = a - origin + e.bytes.length := by omega
        rw [hoff, ← List.drop_drop, hrom, List.flatMap_cons, List.drop_left]
      · intro b stmt hmem
        exact h b stmt (List.mem_append_right _ (List.mem_cons_of_mem _ hmem))

end Layout

/-! ## The names of a listing -/

section Names

variable {labels : List (Word × Text)} {options : DisassembleOptions} {rom : List Byte}

/-- No two addresses have one name. -/
def DistinctNames (labels : List (Word × Text)) : Prop :=
  ∀ target target' name, OrderedMap.find labels target = some name →
    OrderedMap.find labels target' = some name → target = target'

/-- The listing has a label for an address. -/
def isDefined (options : DisassembleOptions) (rom : List Byte) (target : Word) : Bool :=
  options.emitLabels &&
    (addressed options.origin.toNat (entries rom)).any fun p =>
      decide (BitVec.ofNat 16 p.1 = target)

variable (labels options rom) in
theorem listing_eq : listing labels options rom =
    (if options.emitOrg then [SourceLine.statement labels (.org options.origin)] else []) ++
      entryStatements labels options options.origin.toNat (entries rom) := by
  unfold listing sourceLines entryStatements
  rw [List.map_append]
  split
  · rfl
  · rfl

variable (labels options rom) in
theorem placed_listing : placed options.origin.toNat (listing labels options rom) =
    (if options.emitOrg then
      [(options.origin.toNat, SourceLine.statement labels (.org options.origin))] else []) ++
        placed options.origin.toNat
          (entryStatements labels options options.origin.toNat (entries rom)) := by
  rw [listing_eq]
  split
  · have hnext : (SourceLine.statement labels (.org options.origin)).next options.origin.toNat =
        options.origin.toNat := toNat_setWidth_word _
    show _ :: placed ((SourceLine.statement labels (.org options.origin)).next _) _ = _
    rw [hnext]
    rfl
  · rfl

theorem mem_symbolsOf {a : Nat} {es : List Entry} (hfits : ∀ p ∈ addressed a es, Fits labels p)
    {name : Text} {target : Word} :
    (name, target) ∈ symbolsOf a (entryStatements labels options a es) ↔
      options.emitLabels = true ∧ (∃ p ∈ addressed a es, BitVec.ofNat 16 p.1 = target) ∧
        OrderedMap.find labels target = some name := by
  unfold symbolsOf
  rw [placed_entryStatements labels options hfits]
  constructor
  · intro h
    obtain ⟨q, hq, hsymbol⟩ := List.mem_filterMap.mp h
    obtain ⟨p, hp, hq⟩ := List.mem_flatMap.mp hq
    obtain hlabel | hentry := List.mem_append.mp hq
    · obtain ⟨stmt, hstmt, rfl⟩ := List.mem_map.mp hlabel
      obtain ⟨found, hemit, hfind, rfl⟩ := mem_labelStatements labels options hstmt
      cases hsymbol
      exact ⟨hemit, ⟨p, hp, rfl⟩, hfind⟩
    · rw [List.mem_singleton.mp hentry, symbol_entry] at hsymbol
      cases hsymbol
  · rintro ⟨hemit, ⟨p, hp, rfl⟩, hfind⟩
    refine List.mem_filterMap.mpr ⟨(p.1, .label ⟨name, {}⟩), ?_, rfl⟩
    refine List.mem_flatMap.mpr ⟨p, hp, List.mem_append_left _ (List.mem_map_of_mem ?_)⟩
    unfold labelStatements labelLines
    rw [if_pos hemit, hfind]
    exact List.mem_singleton.mpr rfl

theorem symbolsOf_listing : symbolsOf options.origin.toNat (listing labels options rom) =
    symbolsOf options.origin.toNat
      (entryStatements labels options options.origin.toNat (entries rom)) := by
  unfold symbolsOf
  rw [placed_listing, List.filterMap_append]
  split
  · rfl
  · rfl

theorem constant_statement (l : SourceLine) : (l.statement labels).constant? = none := by
  cases l with
  | org | label => rfl
  | entry address e =>
      cases e with
      | data | code => rfl

theorem constantsOf_listing : constantsOf (listing labels options rom) = [] := by
  apply List.filterMap_eq_nil_iff.mpr
  intro stmt hstmt
  obtain ⟨l, -, rfl⟩ := List.mem_map.mp hstmt
  exact constant_statement l

/-- The assembler gives the labels of a listing their addresses. -/
theorem means_listing (hdistinct : DistinctNames labels)
    (hfits : ∀ p ∈ addressed options.origin.toNat (entries rom), Fits labels p) :
    Means labels (isDefined options rom)
      (meaningOf options.origin.toNat (listing labels options rom)) where
  number operand hkind := by
    unfold meaningOf FirstPassResult.value
    rw [hkind]
  label operand target hkind hfind := by
    have hmem : ∀ target', (operand.label, target') ∈
        symbolsOf options.origin.toNat (listing labels options rom) ↔
          target' = target ∧ isDefined options rom target = true := by
      intro target'
      unfold isDefined
      rw [symbolsOf_listing, mem_symbolsOf hfits, Bool.and_eq_true, List.any_eq_true]
      constructor
      · rintro ⟨hemit, ⟨p, hp, hat⟩, hname⟩
        obtain rfl := hdistinct _ _ _ hname hfind
        exact ⟨rfl, hemit, p, hp, decide_eq_true hat⟩
      · rintro ⟨rfl, hemit, p, hp, hat⟩
        exact ⟨hemit, ⟨p, hp, of_decide_eq_true hat⟩, hfind⟩
    unfold meaningOf FirstPassResult.value
    rw [hkind, constantsOf_listing]
    show Option.map BitVec.toNat (OrderedMap.find _ operand.label) = _
    rw [OrderedMap.find_eq_of_mem_iff hmem]
    cases isDefined options rom target <;> rfl

theorem name_entryStatements {a : Nat} {es : List Entry} {stmt : Statement} {name : Text}
    (h : stmt ∈ entryStatements labels options a es) (hname : stmt.name? = some name) :
    ∃ p ∈ addressed a es, OrderedMap.find labels (BitVec.ofNat 16 p.1) = some name := by
  obtain ⟨p, hp, hlabel | rfl⟩ := mem_entryStatements labels options h
  · obtain ⟨found, -, hfind, rfl⟩ := mem_labelStatements labels options hlabel
    cases hname
    exact ⟨p, hp, hfind⟩
  · rw [name_entry] at hname
    cases hname

/-- No name stands in two lines. -/
theorem freshNames_entryStatements (hdistinct : DistinctNames labels) {a : Nat} {es : List Entry}
    (hspace : a + (es.flatMap Entry.bytes).length ≤ 2 ^ 16) :
    FreshNames (entryStatements labels options a es) := by
  induction es generalizing a with
  | nil => exact .nil
  | cons e rest ih =>
      have hpos := e.length_pos
      rw [List.flatMap_cons, List.length_append] at hspace
      have hrest := ih (a := a + e.bytes.length) (by omega)
      have hentry : FreshNames (e.statement labels (BitVec.ofNat 16 a) ::
          entryStatements labels options (a + e.bytes.length) rest) := by
        refine .cons (fun t _ name hname => ?_) hrest
        rw [name_entry] at hname
        cases hname
      rw [entryStatements_cons]
      obtain hnone | ⟨found, -, hfind, hsome⟩ :=
        labelStatements_cases labels options (BitVec.ofNat 16 a)
      · rw [hnone]
        exact hentry
      · rw [hsome]
        refine .cons (fun t ht name hname hagain => ?_) hentry
        cases hname
        obtain rfl | ht := List.mem_cons.mp ht
        · rw [name_entry] at hagain
          cases hagain
        · -- a name of a later line is that of another address
          obtain ⟨p, hp, hlater⟩ := name_entryStatements ht hagain
          have hbounds := addressed_bounds hp
          have hlength := p.2.length_pos
          have hsame := congrArg BitVec.toNat (hdistinct _ _ _ hfind hlater)
          rw [BitVec.toNat_ofNat, BitVec.toNat_ofNat, Nat.mod_eq_of_lt (by omega),
            Nat.mod_eq_of_lt (by omega)] at hsame
          omega

theorem freshNames_listing (hdistinct : DistinctNames labels)
    (hspace : options.origin.toNat + rom.length ≤ 2 ^ 16) :
    FreshNames (listing labels options rom) := by
  rw [← bytes_entries rom] at hspace
  have hfresh : FreshNames
      (entryStatements labels options options.origin.toNat (entries rom)) :=
    freshNames_entryStatements hdistinct hspace
  rw [listing_eq]
  split
  · refine .cons (fun t _ name hname => ?_) hfresh
    cases hname
  · exact hfresh

theorem fits_of_faithful {defined : Word → Bool} {p : Nat × Entry} (hcomplete : p.2.Complete)
    (h : p.2.Faithful labels defined (BitVec.ofNat 16 p.1)) : Fits labels p := by
  obtain ⟨a, e⟩ := p
  cases hcomplete with
  | data opcode => rfl
  | @code info operands hinfo hlength =>
      show Statement.size (.instruction (codeStatement labels info operands _)) =
        operands.length + 1
      obtain ⟨-, hselect⟩ | ⟨hshort, -⟩ := select_code labels operands (BitVec.ofNat 16 a) hinfo
      · rw [size_of_select hselect]
        omega
      · rw [h.long] at hshort
        cases hshort

theorem fits_entries {defined : Word → Bool}
    (h : ∀ p ∈ addressed options.origin.toNat (entries rom),
      p.2.Faithful labels defined (BitVec.ofNat 16 p.1)) :
    ∀ p ∈ addressed options.origin.toNat (entries rom), Fits labels p := fun p hp =>
  fits_of_faithful (complete_entries rom _ (mem_of_mem_addressed hp)) (h p hp)

theorem mem_placed_listing
    (hfits : ∀ p ∈ addressed options.origin.toNat (entries rom), Fits labels p) {p : Nat × Entry}
    (hp : p ∈ addressed options.origin.toNat (entries rom)) :
    (p.1, p.2.statement labels (BitVec.ofNat 16 p.1)) ∈
      placed options.origin.toNat (listing labels options rom) := by
  rw [placed_listing, placed_entryStatements labels options hfits]
  refine List.mem_append_right _ (List.mem_flatMap.mpr ⟨p, hp, ?_⟩)
  exact List.mem_append_right _ List.mem_cons_self

end Names

/-! ## The assembler's output -/

section Output

variable {labels : List (Word × Text)} {options : DisassembleOptions} {rom : List Byte}

/-- The options for a listing: the addresses of the ROM. -/
def assemblerOptions (options : DisassembleOptions) (rom : List Byte) : AssemblerOptions :=
  { origin := options.origin, romSize := BitVec.ofNat 32 rom.length }

theorem toNat_romSize (hspace : options.origin.toNat + rom.length ≤ 2 ^ 16) :
    (assemblerOptions options rom).romSize.toNat = rom.length := by
  unfold assemblerOptions
  rw [BitVec.toNat_ofNat]
  exact Nat.mod_eq_of_lt (by omega)

/-- Entries that are assembled to their bytes are admitted. -/
theorem admitted_entry {value : Operand → Option Nat} {a : Nat} {e : Entry}
    (h : Encodes value a (e.statement labels (BitVec.ofNat 16 a)) e.bytes)
    (hinside : Inside (assemblerOptions options rom) a e.bytes.length) :
    Admitted (assemblerOptions options rom) value a (e.statement labels (BitVec.ofNat 16 a)) := by
  cases e with
  | data opcode => exact .bytes rfl (List.cons_ne_nil _ _) h hinside
  | code info operands => exact .instruction h hinside

theorem admitted_listing (hdistinct : DistinctNames labels)
    (hspace : options.origin.toNat + rom.length ≤ 2 ^ 16)
    (hfaithful : ∀ p ∈ addressed options.origin.toNat (entries rom),
      p.2.Faithful labels (isDefined options rom) (BitVec.ofNat 16 p.1)) :
    ∀ q ∈ placed options.origin.toNat (listing labels options rom),
      Admitted (assemblerOptions options rom)
        (meaningOf options.origin.toNat (listing labels options rom)) q.1 q.2 := by
  have hcomplete := complete_entries rom
  have hfits := fits_entries hfaithful
  have hmeans := means_listing hdistinct hfits
  have horigin := options.origin.isLt
  intro q hq
  rw [placed_listing, placed_entryStatements labels options hfits] at hq
  obtain horg | hq := List.mem_append.mp hq
  · split at horg
    · have hnumber : (options.origin.setWidth 32).toNat = options.origin.toNat :=
        toNat_setWidth_word _
      rw [List.mem_singleton.mp horg]
      exact .org rfl rfl rfl (Nat.le_of_eq hnumber.symm)
        (hnumber.trans_le (Nat.le_of_lt_succ horigin))
    · cases horg
  · obtain ⟨p, hp, hq⟩ := List.mem_flatMap.mp hq
    have hbounds := addressed_bounds hp
    have hpos := p.2.length_pos
    rw [bytes_entries] at hbounds
    obtain hlabel | hentry := List.mem_append.mp hq
    · obtain ⟨stmt, hstmt, rfl⟩ := List.mem_map.mp hlabel
      obtain ⟨name, -, -, rfl⟩ := mem_labelStatements labels options hstmt
      have hle : p.1 ≤ 0xFFFF := by omega
      exact .label _ hle
    · rw [List.mem_singleton.mp hentry]
      have hencodes := (encodes_entry_iff hmeans (by omega)
        (hcomplete _ (mem_of_mem_addressed hp))).mpr (hfaithful p hp)
      have hrom := toNat_romSize hspace
      exact admitted_entry hencodes ⟨hbounds.1, by rw [hrom]; exact hbounds.2, by omega⟩

theorem nodup_emitted_listing (hspace : options.origin.toNat + rom.length ≤ 2 ^ 16) :
    (emitted options.origin.toNat (listing labels options rom)).Nodup := by
  have hle := size_entryStatements_le labels options (a := options.origin.toNat)
    (complete_entries rom)
  rw [bytes_entries] at hle
  have hnodup := nodup_emitted (fun _ => next_entryStatements labels options)
    (show options.origin.toNat + _ ≤ 2 ^ 16 from Nat.le_trans (Nat.add_le_add_left hle _) hspace)
  unfold emitted
  rw [placed_listing, List.flatMap_append]
  split
  · exact hnodup
  · exact hnodup

section Passes

variable {Path : Type} {host : Host Path} {filename : Text}

/-- The passes over a listing, when they accept it. -/
theorem passes_of_listing (hspace : options.origin.toNat + rom.length ≤ 2 ^ 16)
    {result : AssemblerResult}
    (h : assembleProgram host { statements := listing labels options rom } filename
      (assemblerOptions options rom) = .ok result) :
    ∃ pass, pass.value = meaningOf options.origin.toNat (listing labels options rom) ∧
      result.rom.length = rom.length ∧
      WellPlaced options.origin.toNat (listing labels options rom) pass result.rom := by
  obtain ⟨pass, hpass, hencode⟩ := bind_eq_ok.mp h
  have hnodup : (emitted options.origin.toNat (listing labels options rom)).Nodup :=
    nodup_emitted_listing hspace
  obtain ⟨hlength, hplaced⟩ := wellPlaced_of_passes hnodup hpass hencode
  have hsize : ∀ p ∈ placed options.origin.toNat (listing labels options rom),
      p.2.size ≤ 2 ^ 16 := fun p hp => size_le_of_nodup ((List.nodup_flatMap.mp hnodup).1 p hp)
  exact ⟨pass, value_of_firstPass hsize hpass, hlength.trans (toNat_romSize hspace), hplaced⟩

/-- Faithful entries are assembled to the ROM. -/
theorem romOf_of_faithful (hdistinct : DistinctNames labels)
    (hspace : options.origin.toNat + rom.length ≤ 2 ^ 16)
    (hfaithful : ∀ p ∈ addressed options.origin.toNat (entries rom),
      p.2.Faithful labels (isDefined options rom) (BitVec.ofNat 16 p.1)) :
    romOf host filename (assemblerOptions options rom) (listing labels options rom) = some rom := by
  have hcomplete := complete_entries rom
  have hfits := fits_entries hfaithful
  have hmeans := means_listing hdistinct hfits
  have haccepted : ∃ result, assembleProgram host { statements := listing labels options rom }
      filename (assemblerOptions options rom) = .ok result :=
    exists_assembleProgram (freshNames_listing hdistinct hspace)
      (admitted_listing hdistinct hspace hfaithful)
  -- the listing is accepted, and its bytes are compared one by one
  obtain ⟨result, hresult⟩ := haccepted
  obtain ⟨pass, hvalue, hlength, hplaced⟩ := passes_of_listing hspace hresult
  unfold romOf
  rw [hresult]
  show some result.rom = some rom
  congr 1
  refine List.ext_getElem? fun k => ?_
  by_cases hk : k < rom.length
  · -- a byte of the ROM is one of an entry
    have hend : options.origin.toNat + k <
        options.origin.toNat + ((entries rom).flatMap Entry.bytes).length := by
      rw [bytes_entries]
      omega
    obtain ⟨p, hp, hle, hlt⟩ := exists_addressed (Nat.le_add_right _ _) hend
    have hbounds := addressed_bounds hp
    rw [bytes_entries] at hbounds
    obtain ⟨bytes, hencodes, hbytes⟩ := hplaced.statement _ _ (mem_placed_listing hfits hp)
    have hentry := (encodes_entry_iff hmeans (by have := p.2.length_pos; omega)
      (hcomplete _ (mem_of_mem_addressed hp))).mpr (hfaithful p hp)
    rw [hvalue] at hencodes
    obtain rfl := hencodes.unique hentry
    have hi : options.origin.toNat + k - p.1 < p.2.bytes.length := by omega
    have hat : k = p.1 - options.origin.toNat + (options.origin.toNat + k - p.1) := by omega
    have hrom := getElem?_addressed hp hi
    rw [bytes_entries] at hrom
    rw [hat, hrom, (hbytes _ hi).2, List.getElem?_eq_getElem hi]
  · rw [List.getElem?_eq_none (by omega), List.getElem?_eq_none (by omega)]

/-- A listing that is assembled to its ROM is one of faithful entries. -/
theorem faithful_of_romOf (hdistinct : DistinctNames labels)
    (hspace : options.origin.toNat + rom.length ≤ 2 ^ 16)
    (h : romOf host filename (assemblerOptions options rom) (listing labels options rom) =
      some rom) :
    ∀ p ∈ addressed options.origin.toNat (entries rom),
      p.2.Faithful labels (isDefined options rom) (BitVec.ofNat 16 p.1) := by
  have hcomplete := complete_entries rom
  unfold romOf at h
  cases hresult : assembleProgram host { statements := listing labels options rom } filename
      (assemblerOptions options rom) with
  | error e =>
      rw [hresult] at h
      cases h
  | ok result =>
      rw [hresult] at h
      have hsame : result.rom = rom := Option.some.inj h
      obtain ⟨pass, hvalue, -, hplaced⟩ := passes_of_listing hspace hresult
      rw [hsame] at hplaced
      have hstatement := hplaced.statement
      rw [hvalue, placed_listing] at hstatement
      -- the bytes alone tell where everything is
      have hfits : ∀ p ∈ addressed options.origin.toNat (entries rom), Fits labels p := by
        apply fits_of_bytes labels options (Nat.le_refl _) hcomplete
        · rw [Nat.sub_self, List.drop_zero, bytes_entries]
        · intro b stmt hmem
          obtain ⟨bytes, hencodes, hbytes⟩ := hstatement b stmt (List.mem_append_right _ hmem)
          exact ⟨bytes, hencodes, fun i hi => (hbytes i hi).2⟩
      have hmeans := means_listing hdistinct hfits
      intro p hp
      have hbounds := addressed_bounds hp
      have hpos := p.2.length_pos
      rw [bytes_entries] at hbounds
      obtain ⟨bytes, hencodes, hbytes⟩ := hplaced.statement _ _ (mem_placed_listing hfits hp)
      rw [hvalue] at hencodes
      have hlength : bytes.length = p.2.bytes.length := hencodes.length.trans (hfits p hp)
      have hequal : bytes = p.2.bytes := by
        refine List.ext_getElem hlength fun i hi hi' => ?_
        have hrom := getElem?_addressed hp hi'
        rw [bytes_entries, (hbytes i hi).2, List.getElem?_eq_getElem hi'] at hrom
        exact Option.some.inj hrom
      rw [hequal] at hencodes
      exact (encodes_entry_iff hmeans (by omega)
        (hcomplete _ (mem_of_mem_addressed hp))).mp hencodes

end Passes

/-! ## The round trip -/

/-- The names of debug symbols, as the assembler writes them. -/
structure PlainNames (symbols : DebugSymbols) : Prop where
  nodup : (symbols.symbols.map Prod.fst).Nodup
  isName : ∀ e ∈ symbols.symbols, IsName e.1 ∧ toLower e.1 = e.1

theorem mem_of_find_foldl {l : List (Text × Word)} {found : List (Word × Text)} {target : Word}
    {name : Text}
    (h : OrderedMap.find (l.foldl (fun labels entry =>
        if (OrderedMap.find labels entry.2).isSome then labels
        else labels ++ [(entry.2, entry.1)]) found) target = some name) :
    OrderedMap.find found target = some name ∨ (name, target) ∈ l := by
  induction l generalizing found with
  | nil => exact .inl h
  | cons e l ih =>
      obtain hfound | hmem := ih h
      · dsimp only at hfound
        split at hfound
        · exact .inl hfound
        · rw [OrderedMap.find_append] at hfound
          obtain hold | ⟨-, hnew⟩ := Option.or_eq_some_iff.mp hfound
          · exact .inl hold
          · have hpair := List.mem_singleton.mp (Table.mem_of_lookup hnew)
            cases hpair
            exact .inr List.mem_cons_self
      · exact .inr (List.mem_cons_of_mem _ hmem)

/-- A label of the map is one of the symbols. -/
theorem mem_of_find_buildLabelMap {symbols : Option DebugSymbols} {target : Word} {name : Text}
    (h : OrderedMap.find (buildLabelMap symbols) target = some name) :
    ∃ s ∈ symbols, (name, target) ∈ s.symbols := by
  cases symbols with
  | none => cases h
  | some s =>
      obtain hnil | hmem := mem_of_find_foldl h
      · cases hnil
      · exact ⟨s, rfl, hmem⟩

variable {symbols : Option DebugSymbols}

theorem lowerNames_buildLabelMap (h : ∀ s ∈ symbols, PlainNames s) :
    LowerNames (buildLabelMap symbols) := by
  intro target name hfind
  obtain ⟨s, hs, hmem⟩ := mem_of_find_buildLabelMap hfind
  exact (h s hs).isName _ hmem

theorem distinctNames_buildLabelMap (h : ∀ s ∈ symbols, PlainNames s) :
    DistinctNames (buildLabelMap symbols) := by
  intro target target' name hfind hfind'
  obtain ⟨s, hs, hmem⟩ := mem_of_find_buildLabelMap hfind
  obtain ⟨s', hs', hmem'⟩ := mem_of_find_buildLabelMap hfind'
  cases hs.symm.trans hs'
  exact congrArg Prod.snd (List.inj_on_of_nodup_map (h s hs).nodup hmem hmem' rfl)

theorem includePath_statement (l : SourceLine) : (l.statement labels).includePath? = none := by
  cases l with
  | org | label => rfl
  | entry address e =>
      cases e with
      | data | code => rfl

theorem name_of_mem_sourceLines {name : Text}
    (h : .label name ∈ sourceLines labels options rom) :
    ∃ target, OrderedMap.find labels target = some name := by
  unfold sourceLines at h
  obtain horg | hentries := List.mem_append.mp h
  · split at horg
    · cases List.mem_singleton.mp horg
    · cases horg
  · obtain ⟨p, -, hline⟩ := List.mem_flatMap.mp hentries
    obtain hlabel | hentry := List.mem_append.mp hline
    · unfold labelLines at hlabel
      split at hlabel
      · obtain ⟨found, hfind, hsame⟩ := Option.map_eq_some_iff.mp (Option.mem_toList.mp hlabel)
        cases hsame
        exact ⟨_, hfind⟩
      · cases hlabel
    · cases List.mem_singleton.mp hentry

theorem isChain_lines (h : LowerNames labels) (lines : List SourceLine) :
    (lines.flatMap (SourceLine.pieces labels options)).IsChain Piece.Joins := by
  induction lines with
  | nil => exact .nil
  | cons l lines ih => exact isChain_pieces options h l ih

/-- Assembling what the disassembler prints for a ROM gives the ROM again just when every entry of
it is faithful. -/
theorem assemble_disassemble_iff {Path : Type} [DecidableEq Path] {host : Host Path} (levels : Nat)
    (filename : Text) {rom : List Byte} {symbols : Option DebugSymbols}
    {options : DisassembleOptions} (hspace : options.origin.toNat + rom.length ≤ 2 ^ 16)
    (hnames : ∀ s ∈ symbols, PlainNames s) :
    (∃ result, assemble host (levels + 1) (disassemble rom symbols options) filename
        (assemblerOptions options rom) = some (.ok result) ∧ result.rom = rom) ↔
      ∀ p ∈ addressed options.origin.toNat (entries rom),
        p.2.Faithful (buildLabelMap symbols) (isDefined options rom) (BitVec.ofNat 16 p.1) := by
  have hlower := lowerNames_buildLabelMap hnames
  have hdistinct := distinctNames_buildLabelMap hnames
  have hlabel : ∀ l ∈ sourceLines (buildLabelMap symbols) options rom, ∀ name, l = .label name →
      IsName name ∧ toLower name = name := by
    rintro l hl name rfl
    obtain ⟨target, hfind⟩ := name_of_mem_sourceLines hl
    exact hlower target name hfind
  have hlines : ∀ l ∈ sourceLines (buildLabelMap symbols) options rom,
      ReadsAs (l.pieces (buildLabelMap symbols) options) [l.statement (buildLabelMap symbols)] :=
    fun l hl => readsAs_pieces options hlower fun name h => (hlabel l hl name h).2
  have hvalid : ∀ p ∈ (sourceLines (buildLabelMap symbols) options rom).flatMap
      (SourceLine.pieces (buildLabelMap symbols) options), p.Valid := by
    intro p hp
    obtain ⟨l, hl, hp⟩ := List.mem_flatMap.mp hp
    exact valid_pieces options hlower (fun name h => (hlabel l hl name h).1) p hp
  have hlisting : ((sourceLines (buildLabelMap symbols) options rom).flatMap fun l =>
      [l.statement (buildLabelMap symbols)]) = listing (buildLabelMap symbols) options rom :=
    List.map_eq_flatMap.symm
  have hinclude : ∀ stmt ∈ (sourceLines (buildLabelMap symbols) options rom).flatMap (fun l =>
      [l.statement (buildLabelMap symbols)]), stmt.includePath? = none := by
    intro stmt hstmt
    obtain ⟨l, -, hl⟩ := List.mem_flatMap.mp hstmt
    rw [List.mem_singleton.mp hl]
    exact includePath_statement l
  -- the text of the disassembler is the text of the lines' pieces
  have htext : disassemble rom symbols options =
      ((sourceLines (buildLabelMap symbols) options rom).flatMap
        (SourceLine.pieces (buildLabelMap symbols) options)).flatMap Piece.text := by
    rw [disassemble_eq, List.flatMap_assoc]
    simp only [text_pieces options hlower]
  -- assembling it is assembling the statements that the lines stand for
  rw [htext, assemble_printed hlines hvalid (isChain_lines hlower _) hinclude, hlisting]
  constructor
  · exact faithful_of_romOf hdistinct hspace
  · exact romOf_of_faithful hdistinct hspace

/-- A loop at a label, and the opcode of an instruction that is cut off. -/
def loopRom : List Byte := [0x10, 0x01, 0x51, 0x00, 0x02, 0x71, 0xF9, 0x51]

def loopSymbols : DebugSymbols :=
  { version := [], entry := 0x8000, sourceRoot := [], sourceFiles := []
    symbols := [("loop".toList, 0x8000)], pcToSource := [], records := [] }

def loopEntries : List Entry :=
  [.code ⟨.lda, 0x10, .imm, [.zero, .negative]⟩ [0x01], .code ⟨.sta, 0x51, .abs, []⟩ [0x00, 0x02],
    .code ⟨.bne, 0x71, .rel, []⟩ [0xF9], .data 0x51]

theorem entries_loop : entries loopRom = loopEntries := by
  have hlda : decodeAt 0x10 [0x01, 0x51, 0x00, 0x02, 0x71, 0xF9, 0x51] =
      some ⟨.lda, 0x10, .imm, [.zero, .negative]⟩ := by
    decide
  have hsta : decodeAt 0x51 [0x00, 0x02, 0x71, 0xF9, 0x51] = some ⟨.sta, 0x51, .abs, []⟩ := by
    decide
  have hbne : decodeAt 0x71 [0xF9, 0x51] = some ⟨.bne, 0x71, .rel, []⟩ := by decide
  have hdata : decodeAt 0x51 [] = none := by decide
  unfold loopRom loopEntries
  rw [entries, hlda]
  show _ :: entries [0x51, 0x00, 0x02, 0x71, 0xF9, 0x51] = _
  rw [entries, hsta]
  show _ :: _ :: entries [0x71, 0xF9, 0x51] = _
  rw [entries, hbne]
  show _ :: _ :: _ :: entries [0x51] = _
  rw [entries, hdata, entries]
  rfl

theorem assemble_disassemble_loop : ∃ result,
    assemble flatHost 1 (disassemble loopRom (some loopSymbols) {}) []
      (assemblerOptions {} loopRom) = some (.ok result) ∧ result.rom = loopRom := by
  have hnames : ∀ s ∈ some loopSymbols, PlainNames s := by
    intro s hs
    cases hs
    refine ⟨List.nodup_singleton _, fun e he => ?_⟩
    rw [List.mem_singleton.mp he]
    exact ⟨.of_all (by decide) (by decide), by decide⟩
  have haddressed : addressed 0x8000 (entries loopRom) =
      [(0x8000, .code ⟨.lda, 0x10, .imm, [.zero, .negative]⟩ [0x01]),
        (0x8002, .code ⟨.sta, 0x51, .abs, []⟩ [0x00, 0x02]),
        (0x8005, .code ⟨.bne, 0x71, .rel, []⟩ [0xF9]), (0x8007, .data 0x51)] := by
    rw [entries_loop]
    rfl
  have hdefined : isDefined {} loopRom 0x8000 = true := by
    show (true && (addressed 0x8000 (entries loopRom)).any _) = true
    rw [haddressed]
    rfl
  refine (assemble_disassemble_iff 0 [] (by decide) hnames).mpr ?_
  show ∀ p ∈ addressed 0x8000 (entries loopRom), _
  rw [haddressed]
  simp only [List.forall_mem_cons]
  refine ⟨⟨fun target h => ?_, rfl, fun h => ?_⟩,
    ⟨fun target h hsome => ?_, by decide, fun h => ?_⟩,
    ⟨fun target h _ => ?_, rfl, fun _ => by decide⟩, trivial, fun p hp => ?_⟩
  · cases h
  · cases h
  · -- no label at the address that is stored to
    cases h
    exact absurd hsome (by decide)
  · cases h
  · have htarget : (0x8000 : Word) = target := by
      apply Option.some.inj
      rw [← Option.mem_def.mp h]
      decide
    rw [← htarget]
    exact hdefined
  · cases hp

end Output

end Irata2.Sim
