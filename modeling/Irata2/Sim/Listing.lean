import Irata2.Assembler.Printing
import Irata2.Sim.Disassembler

/-!
# Listings

The disassembler's output line by line: which pieces of source it prints for the instructions and
the bytes of a ROM, and which statements the assembler reads in them.
-/

namespace Irata2.Sim

open Isa Library Assembler

/-! ## Entries -/

/-- An instruction of a ROM with its operand, or a byte. -/
inductive Entry
  | data (opcode : Byte)
  | code (info : InstructionInfo) (operands : List Byte)
  deriving DecidableEq, Repr

namespace Entry

def bytes : Entry → List Byte
  | .data opcode => [opcode]
  | .code info operands => info.opcode :: operands

/-- An instruction has as many bytes behind its opcode as its mode takes. -/
inductive Complete : Entry → Prop
  | data (opcode : Byte) : Complete (.data opcode)
  | code {info : InstructionInfo} {operands : List Byte} (hinfo : info ∈ instructions)
      (hlength : operands.length = info.addressingMode.operands) : Complete (.code info operands)

theorem length_pos (e : Entry) : 0 < e.bytes.length := by
  cases e with
  | data | code => exact Nat.succ_pos _

end Entry

/-- The entries that the disassembler finds. -/
def entries : List Byte → List Entry
  | [] => []
  | opcode :: rest =>
      match decodeAt opcode rest with
      | none => .data opcode :: entries rest
      | some info =>
          .code info (rest.take info.addressingMode.operands) ::
            entries (rest.drop info.addressingMode.operands)
termination_by rom => rom.length
decreasing_by
  · simp
  · simp only [List.length_drop, List.length_cons]
    omega

/-- The entries with their addresses. -/
def addressed : Nat → List Entry → List (Nat × Entry)
  | _, [] => []
  | a, e :: rest => (a, e) :: addressed (a + e.bytes.length) rest

theorem addressed_cons (a : Nat) (e : Entry) (rest : List Entry) :
    addressed a (e :: rest) = (a, e) :: addressed (a + e.bytes.length) rest := rfl

theorem decodeAt_some {opcode : Byte} {rest : List Byte} {info : InstructionInfo}
    (h : decodeAt opcode rest = some info) :
    info ∈ instructions ∧ info.opcode = opcode ∧ info.addressingMode.operands ≤ rest.length := by
  obtain ⟨found, hfound, hlength⟩ := Option.bind_eq_some_iff.mp h
  obtain ⟨hmem, hopcode⟩ := getInstruction_eq_some hfound
  by_cases hlt : found.addressingMode.operands > rest.length
  · rw [if_pos hlt] at hlength
    cases hlength
  · rw [if_neg hlt] at hlength
    cases hlength
    exact ⟨hmem, hopcode, Nat.not_lt.mp hlt⟩

/-- The entries are the whole ROM. -/
theorem bytes_entries (rom : List Byte) : (entries rom).flatMap Entry.bytes = rom := by
  induction rom using entries.induct with
  | case1 =>
      rw [entries]
      rfl
  | case2 opcode rest h ih =>
      rw [entries, h]
      simp only [List.flatMap_cons, ih]
      rfl
  | case3 opcode rest info h ih =>
      obtain ⟨-, hopcode, -⟩ := decodeAt_some h
      rw [entries, h]
      simp only [List.flatMap_cons, ih, Entry.bytes]
      rw [hopcode, List.cons_append, List.take_append_drop]

theorem complete_entries (rom : List Byte) : ∀ e ∈ entries rom, e.Complete := by
  induction rom using entries.induct with
  | case1 =>
      intro e he
      rw [entries] at he
      cases he
  | case2 opcode rest h ih =>
      rw [entries, h, List.forall_mem_cons]
      exact ⟨.data opcode, ih⟩
  | case3 opcode rest info h ih =>
      obtain ⟨hmem, -, hle⟩ := decodeAt_some h
      rw [entries, h, List.forall_mem_cons]
      exact ⟨.code hmem (List.length_take_of_le hle), ih⟩

section Addressed

variable {a : Nat} {es : List Entry} {p : Nat × Entry}

/-- An entry is inside the ROM, and behind the entries before it. -/
theorem addressed_bounds (h : p ∈ addressed a es) :
    a ≤ p.1 ∧ p.1 + p.2.bytes.length ≤ a + (es.flatMap Entry.bytes).length := by
  induction es generalizing a with
  | nil => cases h
  | cons e rest ih =>
      rw [List.flatMap_cons, List.length_append]
      obtain rfl | h := List.mem_cons.mp h
      · dsimp only
        omega
      · have hrest := ih h
        omega

theorem getElem?_addressed (h : p ∈ addressed a es) {i : Nat} (hi : i < p.2.bytes.length) :
    (es.flatMap Entry.bytes)[p.1 - a + i]? = p.2.bytes[i]? := by
  induction es generalizing a with
  | nil => cases h
  | cons e rest ih =>
      rw [List.flatMap_cons]
      obtain rfl | h := List.mem_cons.mp h
      · dsimp only at hi ⊢
        rw [Nat.sub_self, Nat.zero_add, List.getElem?_append_left hi]
      · have hle := (addressed_bounds h).1
        rw [List.getElem?_append_right (by omega), ← ih h]
        congr 1
        omega

/-- Every byte is one of an entry. -/
theorem exists_addressed {k : Nat} (hle : a ≤ k)
    (hlt : k < a + (es.flatMap Entry.bytes).length) :
    ∃ p ∈ addressed a es, p.1 ≤ k ∧ k < p.1 + p.2.bytes.length := by
  induction es generalizing a with
  | nil =>
      rw [List.flatMap_nil, List.length_nil] at hlt
      omega
  | cons e rest ih =>
      rw [List.flatMap_cons, List.length_append] at hlt
      by_cases hhead : k < a + e.bytes.length
      · exact ⟨(a, e), List.mem_cons_self, hle, hhead⟩
      · obtain ⟨p, hp, hk⟩ := ih (Nat.not_lt.mp hhead) (by omega)
        exact ⟨p, List.mem_cons_of_mem _ hp, hk⟩

theorem mem_of_mem_addressed (h : p ∈ addressed a es) : p.2 ∈ es := by
  induction es generalizing a with
  | nil => cases h
  | cons e rest ih =>
      obtain rfl | h := List.mem_cons.mp h
      · exact List.mem_cons_self
      · exact List.mem_cons_of_mem _ (ih h)

end Addressed

/-! ## Lines -/

/-- A line of the listing. -/
inductive SourceLine
  | org (origin : Word)
  | label (name : Text)
  | entry (address : Word) (e : Entry)

section Lines

variable (labels : List (Word × Text)) (options : DisassembleOptions)

def labelLines (address : Word) : List SourceLine :=
  if options.emitLabels then ((OrderedMap.find labels address).map SourceLine.label).toList else []

def entryLines (p : Nat × Entry) : List SourceLine :=
  labelLines labels options (BitVec.ofNat 16 p.1) ++ [.entry (BitVec.ofNat 16 p.1) p.2]

/-- The lines of a ROM. -/
def sourceLines (rom : List Byte) : List SourceLine :=
  (if options.emitOrg then [.org options.origin] else []) ++
    (addressed options.origin.toNat (entries rom)).flatMap (entryLines labels options)

namespace SourceLine

/-- The line as the disassembler prints it. -/
def text : SourceLine → Text
  | .org origin => ".org ".toList ++ formatHexWord origin
  | .label name => name ++ ":".toList
  | .entry _ (.data opcode) => byteLine opcode
  | .entry address (.code info operands) => instructionLine labels options info operands address

end SourceLine

theorem labelLine_eq (address : Word) : labelLine labels options address =
    (labelLines labels options address).map (SourceLine.text labels options) := by
  unfold labelLine labelLines
  cases options.emitLabels with
  | false => rfl
  | true =>
      cases OrderedMap.find labels address with
      | none => rfl
      | some name => rfl

theorem text_cons (a : Nat) (e : Entry) (rest : List Entry) :
    ((addressed a (e :: rest)).flatMap (entryLines labels options)).map
        (SourceLine.text labels options) =
      labelLine labels options (BitVec.ofNat 16 a) ++
        SourceLine.text labels options (.entry (BitVec.ofNat 16 a) e) ::
          ((addressed (a + e.bytes.length) rest).flatMap (entryLines labels options)).map
            (SourceLine.text labels options) := by
  rw [addressed_cons, List.flatMap_cons, List.map_append, labelLine_eq]
  unfold entryLines
  rw [List.map_append, List.append_assoc]
  rfl

theorem disassembleFrom_eq (a : Nat) (rom : List Byte) :
    disassembleFrom labels options (BitVec.ofNat 16 a) rom =
      ((addressed a (entries rom)).flatMap (entryLines labels options)).map
        (SourceLine.text labels options) := by
  induction rom using entries.induct generalizing a with
  | case1 =>
      rw [disassembleFrom, entries]
      rfl
  | case2 opcode rest h ih =>
      have hnext : BitVec.ofNat 16 a + 1 = BitVec.ofNat 16 (a + 1) := (BitVec.ofNat_add ..).symm
      rw [disassembleFrom, entries, h]
      simp only
      rw [text_cons, hnext, ih]
      rfl
  | case3 opcode rest info h ih =>
      obtain ⟨-, -, hle⟩ := decodeAt_some h
      have hnext : BitVec.ofNat 16 a + 1 + BitVec.ofNat 16 info.addressingMode.operands =
          BitVec.ofNat 16 (a + (info.opcode :: rest.take info.addressingMode.operands).length) := by
        rw [List.length_cons, List.length_take_of_le hle, Nat.add_comm _ 1, ← Nat.add_assoc,
          BitVec.ofNat_add, BitVec.ofNat_add]
        rfl
      rw [disassembleFrom, entries, h]
      simp only
      rw [text_cons, hnext, ih]
      rfl

/-- The disassembler prints the lines. -/
theorem disassemble_eq (rom : List Byte) (symbols : Option DebugSymbols) :
    disassemble rom symbols options =
      (sourceLines (buildLabelMap symbols) options rom).flatMap fun l =>
        l.text (buildLabelMap symbols) options ++ ['\n'] := by
  have horg : orgLine options = (if options.emitOrg then [SourceLine.org options.origin]
      else []).map (SourceLine.text (buildLabelMap symbols) options) := by
    unfold orgLine
    split
    · rfl
    · rfl
  have hlines := disassembleFrom_eq (buildLabelMap symbols) options options.origin.toNat rom
  rw [BitVec.ofNat_toNat, BitVec.setWidth_eq] at hlines
  unfold disassemble sourceLines
  rw [horg, hlines, ← List.map_append, List.flatMap_map]

end Lines

/-! ## Numbers -/

theorem digit_hexDigit (n : Nat) : Digits.digit (hexDigit n) = some (n % 16) :=
  Digits.digit_toUpper_digitChar (Nat.mod_lt n (by decide))

theorem areDigits_hexDigits (l : List Nat) (hne : l ≠ []) :
    AreDigits 16 (l.map hexDigit) where
  nonempty := by
    intro h
    exact hne (List.map_eq_nil_iff.mp h)
  valid := by
    intro ch hch
    obtain ⟨n, -, rfl⟩ := List.mem_map.mp hch
    exact ⟨n % 16, Nat.mod_lt n (by decide), digit_hexDigit n⟩

def byteDigits (value : Byte) : Text := [value.toNat / 16, value.toNat].map hexDigit

def wordDigits (value : Word) : Text :=
  [value.toNat / 4096, value.toNat / 256, value.toNat / 16, value.toNat].map hexDigit

theorem value_byteDigits (value : Byte) : Digits.value 16 (byteDigits value) = value.toNat := by
  have hlt := value.isLt
  show 16 * (16 * 0 + (Digits.digit (hexDigit (value.toNat / 16))).getD 0) +
    (Digits.digit (hexDigit value.toNat)).getD 0 = _
  rw [digit_hexDigit, digit_hexDigit, Option.getD_some, Option.getD_some]
  omega

theorem value_wordDigits (value : Word) : Digits.value 16 (wordDigits value) = value.toNat := by
  have hlt := value.isLt
  show 16 * (16 * (16 * (16 * 0 + (Digits.digit (hexDigit (value.toNat / 4096))).getD 0) +
    (Digits.digit (hexDigit (value.toNat / 256))).getD 0) +
    (Digits.digit (hexDigit (value.toNat / 16))).getD 0) +
    (Digits.digit (hexDigit value.toNat)).getD 0 = _
  simp only [digit_hexDigit, Option.getD_some]
  omega

/-! ## Operands -/

section Operands

variable (labels : List (Word × Text))

def targetPiece (target : Word) : Piece :=
  match OrderedMap.find labels target with
  | some name => .word name
  | none => .number false (wordDigits target)

/-- The pieces of an operand as the disassembler prints it. -/
def operandPieces (mode : AddressingMode) (bytes : List Byte) (address : Word) : List Piece :=
  let low := bytes.headD 0
  let number : Piece := .number false (byteDigits low)
  let word := Word.ofBytes (bytes.tail.headD 0) low
  match mode with
  | .imp => []
  | .imm => [.number true (byteDigits low)]
  | .zp => [number]
  | .zpx => [number, .mark .comma, .word ['X']]
  | .zpy => [number, .mark .comma, .word ['Y']]
  | .izx => [.mark .leftParen, number, .mark .comma, .word ['X'], .mark .rightParen]
  | .izy => [.mark .leftParen, number, .mark .rightParen, .mark .comma, .word ['Y']]
  | .abs => [targetPiece labels word]
  | .abx => [targetPiece labels word, .mark .comma, .word ['X']]
  | .aby => [targetPiece labels word, .mark .comma, .word ['Y']]
  | .ind => [.mark .leftParen, targetPiece labels word, .mark .rightParen]
  | .rel => [targetPiece labels (address + 2 + low.signExtend 16)]

def targetOperand (target : Word) : Operand :=
  match OrderedMap.find labels target with
  | some name => { kind := .label, label := name }
  | none => { number := target.setWidth 32 }

/-- The operand that the assembler reads. -/
def operandOf (mode : AddressingMode) (bytes : List Byte) (address : Word) : Option Operand :=
  let low := bytes.headD 0
  let number : Operand := { number := low.setWidth 32 }
  let word := Word.ofBytes (bytes.tail.headD 0) low
  match mode with
  | .imp => none
  | .imm => some { number with immediate := true }
  | .zp => some number
  | .zpx => some { number with indexRegister := .x }
  | .zpy => some { number with indexRegister := .y }
  | .izx => some { number with indirect := true, indexRegister := .x }
  | .izy => some { number with indirect := true, indexRegister := .y }
  | .abs => some (targetOperand labels word)
  | .abx => some { targetOperand labels word with indexRegister := .x }
  | .aby => some { targetOperand labels word with indexRegister := .y }
  | .ind => some { targetOperand labels word with indirect := true }
  | .rel => some (targetOperand labels (address + 2 + low.signExtend 16))

theorem text_targetPiece (target : Word) :
    (targetPiece labels target).text = targetText labels target := by
  unfold targetPiece targetText
  cases OrderedMap.find labels target with
  | none => rfl
  | some name => rfl

theorem text_operandPieces (mode : AddressingMode) (bytes : List Byte) (address : Word) :
    (operandPieces labels mode bytes address).flatMap Piece.text =
      formatOperand labels mode bytes address := by
  have htarget := text_targetPiece labels
  cases mode with
  | imp | imm | zp | zpx | zpy | izx | izy => rfl
  | abs | rel => exact (List.append_nil _).trans (htarget _)
  | abx | aby | ind =>
      unfold operandPieces formatOperand
      simp only [List.flatMap_cons, List.flatMap_nil, htarget]
      rfl

theorem denotes_byte (marked : Bool) (value : Byte) :
    Denotes (.number marked (byteDigits value))
      { number := value.setWidth 32, immediate := marked } := by
  rw [← BitVec.ofNat_toNat, ← value_byteDigits]
  exact .number marked (byteDigits value)

variable {labels}

/-- Every label is a name in lower case. -/
def LowerNames (labels : List (Word × Text)) : Prop :=
  ∀ target name, OrderedMap.find labels target = some name → IsName name ∧ toLower name = name

theorem denotes_target (h : LowerNames labels) (target : Word) :
    Denotes (targetPiece labels target) (targetOperand labels target) := by
  unfold targetPiece targetOperand
  cases hfind : OrderedMap.find labels target with
  | none =>
      simp only
      rw [← BitVec.ofNat_toNat, ← value_wordDigits]
      exact .number false (wordDigits target)
  | some name =>
      have hdenotes := Denotes.word name
      rw [(h target name hfind).2] at hdenotes
      exact hdenotes

theorem immediate_targetOperand (target : Word) :
    (targetOperand labels target).immediate = false := by
  unfold targetOperand
  split
  · rfl
  · rfl

/-- The assembler's operand is spelled by the disassembler's pieces. -/
theorem operandPieces_spec (h : LowerNames labels) (mode : AddressingMode) (bytes : List Byte)
    (address : Word) :
    (operandPieces labels mode bytes address = [] ∧ operandOf labels mode bytes address = none) ∨
      ∃ operand, operandOf labels mode bytes address = some operand ∧
        OperandPieces (operandPieces labels mode bytes address) operand := by
  cases mode with
  | imp => exact .inl ⟨rfl, rfl⟩
  | imm => exact .inr ⟨_, rfl, .plain (denotes_byte true _)⟩
  | zp => exact .inr ⟨_, rfl, .plain (denotes_byte false _)⟩
  | zpx => exact .inr ⟨_, rfl, .indexedX (denotes_byte false _)⟩
  | zpy => exact .inr ⟨_, rfl, .indexedY (denotes_byte false _)⟩
  | izx => exact .inr ⟨_, rfl, .indirectX (denotes_byte false _) rfl⟩
  | izy => exact .inr ⟨_, rfl, .indirectY (denotes_byte false _) rfl⟩
  | abs => exact .inr ⟨_, rfl, .plain (denotes_target h _)⟩
  | abx => exact .inr ⟨_, rfl, .indexedX (denotes_target h _)⟩
  | aby => exact .inr ⟨_, rfl, .indexedY (denotes_target h _)⟩
  | ind => exact .inr ⟨_, rfl, .indirect (denotes_target h _) (immediate_targetOperand _)⟩
  | rel => exact .inr ⟨_, rfl, .plain (denotes_target h _)⟩

end Operands

/-! ## Statements -/

section Statements

variable (labels : List (Word × Text)) (options : DisassembleOptions)

/-- The statement of an entry, in a listing. -/
def Entry.statement (address : Word) : Entry → Statement
  | .data opcode =>
      .directive { type := .byte, operands := [{ number := opcode.setWidth 32 }] }
  | .code info operands =>
      .instruction
        { mnemonic := toLower info.mnemonic.name.toList
          operands := (operandOf labels info.addressingMode operands address).toList }

def commentPieces (address : Word) (opcode : Byte) (operands : List Byte) : List Piece :=
  if options.emitAddresses || options.emitBytes then
    [.blank, .comment ((comment options address opcode operands).drop 2)]
  else []

namespace SourceLine

def statement : SourceLine → Statement
  | .org origin => .directive { type := .org, operands := [{ number := origin.setWidth 32 }] }
  | .label name => .label ⟨name, {}⟩
  | .entry address e => e.statement labels address

def pieces : SourceLine → List Piece
  | .org origin =>
      [.directive "org".toList, .blank, .number false (wordDigits origin), .mark .newline]
  | .label name => [.word name, .mark .colon, .mark .newline]
  | .entry _ (.data opcode) =>
      [.directive "byte".toList, .blank, .number false (byteDigits opcode), .mark .newline]
  | .entry address (.code info operands) =>
      let ops := operandPieces labels info.addressingMode operands address
      .word info.mnemonic.name.toList :: ((if ops.isEmpty then [] else .blank :: ops) ++
        (commentPieces options address info.opcode operands ++ [.mark .newline]))

end SourceLine

theorem text_commentPieces (address : Word) (opcode : Byte) (operands : List Byte) :
    (commentPieces options address opcode operands).flatMap Piece.text =
      comment options address opcode operands := by
  unfold commentPieces
  by_cases h : (options.emitAddresses || options.emitBytes) = true
  · rw [if_pos h]
    unfold comment
    rw [if_pos h]
    show ' ' :: ';' :: (_ ++ []) = _
    rw [List.append_nil]
    rfl
  · rw [if_neg h]
    unfold comment
    rw [if_neg h]
    rfl

variable {labels}

theorem exists_targetText (h : LowerNames labels) (target : Word) :
    ∃ ch rest, targetText labels target = ch :: rest := by
  unfold targetText
  cases hfind : OrderedMap.find labels target with
  | none => exact ⟨_, _, rfl⟩
  | some name =>
      have hstart := (h target name hfind).1.start
      cases name with
      | nil => cases hstart
      | cons ch rest => exact ⟨ch, rest, rfl⟩

/-- Only an operand without a piece is printed as nothing. -/
theorem isEmpty_operandPieces (h : LowerNames labels) (mode : AddressingMode) (bytes : List Byte)
    (address : Word) : (operandPieces labels mode bytes address).isEmpty =
      (formatOperand labels mode bytes address).isEmpty := by
  cases mode with
  | imp | imm | zp | zpx | zpy | izx | izy | ind => rfl
  | abs | abx | aby =>
      obtain ⟨ch, rest, htext⟩ :=
        exists_targetText h (Word.ofBytes (bytes.tail.headD 0) (bytes.headD 0))
      unfold formatOperand
      simp only [htext]
      rfl
  | rel =>
      obtain ⟨ch, rest, htext⟩ :=
        exists_targetText h (address + 2 + (bytes.headD 0).signExtend 16)
      unfold formatOperand
      simp only [htext]
      rfl

/-- The pieces of a line are its text and a line break. -/
theorem text_pieces (h : LowerNames labels) (l : SourceLine) :
    (l.pieces labels options).flatMap Piece.text = l.text labels options ++ ['\n'] := by
  cases l with
  | org origin => rfl
  | label name =>
      show name ++ _ = (name ++ _) ++ _
      rw [List.append_assoc]
      rfl
  | entry address e =>
      cases e with
      | data opcode => rfl
      | code info operands =>
          have hops := text_operandPieces labels info.addressingMode operands address
          have hcomment := text_commentPieces options address info.opcode operands
          have hempty := isEmpty_operandPieces h info.addressingMode operands address
          show (SourceLine.pieces labels options (.entry address (.code info operands))).flatMap
              Piece.text = instructionLine labels options info operands address ++ ['\n']
          unfold SourceLine.pieces instructionLine
          simp only [List.flatMap_cons, List.flatMap_append, hcomment, ← hempty]
          split
          · simp [Piece.text, Mark.char]
          · rw [List.flatMap_cons, hops]
            simp [Piece.text, Mark.char]

theorem isName_mnemonic (m : Mnemonic) : IsName m.name.toList := by
  have hall : isIdentifierStart (m.name.toList.headD ' ') = true ∧
      m.name.toList.all isIdentifierChar = true := by
    cases m <;> decide
  exact .of_all hall.1 hall.2

theorem hexDigit_ne (n : Nat) : hexDigit n ≠ '\n' := by
  intro h
  have hdigit := digit_hexDigit n
  rw [h] at hdigit
  cases hdigit

theorem not_mem_comment (address : Word) (opcode : Byte) (operands : List Byte) :
    '\n' ∉ comment options address opcode operands := by
  have hbyte : ∀ b : Byte, '\n' ∉ ' ' :: formatHexByte b := by
    intro b
    simp [formatHexByte, (hexDigit_ne _).symm]
  have hword : '\n' ∉ ' ' :: formatHexWord address := by
    simp [formatHexWord, (hexDigit_ne _).symm]
  have hbytes : '\n' ∉ (opcode :: operands).flatMap fun b => ' ' :: formatHexByte b := by
    intro hmem
    obtain ⟨b, -, hb⟩ := List.mem_flatMap.mp hmem
    exact hbyte b hb
  unfold comment
  split
  · rw [List.mem_append, List.mem_append]
    rintro ((hmem | hmem) | hmem)
    · exact absurd hmem (by decide)
    · split at hmem
      · exact hword hmem
      · cases hmem
    · split at hmem
      · exact hbytes hmem
      · cases hmem
  · exact List.not_mem_nil

theorem silent_commentPieces (address : Word) (opcode : Byte) (operands : List Byte) :
    Silent (commentPieces options address opcode operands) := by
  unfold commentPieces
  split
  · exact .comment _
  · exact .none

theorem bare_operandOf {mode : AddressingMode} {bytes : List Byte} {address : Word}
    {operand : Operand} (h : operandOf labels mode bytes address = some operand) :
    operand.bare = operand := by
  have htarget : ∀ target, (targetOperand labels target).span = {} := by
    intro target
    unfold targetOperand
    split
    · rfl
    · rfl
  have hspan : operand.span = {} := by
    unfold operandOf at h
    cases mode with
    | imp => cases h
    | imm | zp | zpx | zpy | izx | izy =>
        cases h
        rfl
    | abs | abx | aby | ind | rel =>
        cases h
        exact htarget _
  unfold Operand.bare
  rw [← hspan]

/-- The parser reads a line as its statement. -/
theorem readsAs_pieces (h : LowerNames labels) {l : SourceLine}
    (hlabel : ∀ name, l = .label name → toLower name = name) :
    ReadsAs (l.pieces labels options) [l.statement labels] := by
  cases l with
  | org origin =>
      have hline := readsAs_org (wordDigits origin)
      rw [value_wordDigits, BitVec.ofNat_toNat] at hline
      exact hline
  | label name =>
      have hline := readsAs_label name
      rw [hlabel name rfl] at hline
      exact hline
  | entry address e =>
      cases e with
      | data opcode =>
          have hline := readsAs_byte (byteDigits opcode)
          rw [value_byteDigits, BitVec.ofNat_toNat] at hline
          exact hline
      | code info operands =>
          have hsilent := silent_commentPieces options address info.opcode operands
          unfold SourceLine.pieces SourceLine.statement Entry.statement
          obtain ⟨hpieces, hoperand⟩ | ⟨operand, hoperand, hpieces⟩ :=
            operandPieces_spec h info.addressingMode operands address
          · simp only [hpieces, hoperand]
            exact readsAs_implied _ hsilent
          · have hne := hpieces.isEmpty
            have hline := readsAs_operand info.mnemonic.name.toList hpieces hsilent
            rw [bare_operandOf hoperand] at hline
            simp only [hne, hoperand]
            exact hline

theorem valid_targetPiece (h : LowerNames labels) (target : Word) :
    (targetPiece labels target).Valid := by
  unfold targetPiece
  cases hfind : OrderedMap.find labels target with
  | none => exact .number false (areDigits_hexDigits _ (List.cons_ne_nil _ _))
  | some name => exact .word (h target name hfind).1

theorem valid_number (marked : Bool) (value : Byte) :
    (Piece.number marked (byteDigits value)).Valid :=
  .number marked (areDigits_hexDigits _ (List.cons_ne_nil _ _))

theorem valid_operandPieces (h : LowerNames labels) (mode : AddressingMode) (bytes : List Byte)
    (address : Word) : ∀ p ∈ operandPieces labels mode bytes address, p.Valid := by
  have hx : Piece.Valid (.word ['X']) := .word (.of_all (by decide) (by decide))
  have hy : Piece.Valid (.word ['Y']) := .word (.of_all (by decide) (by decide))
  unfold operandPieces
  cases mode <;> simp [valid_number, valid_targetPiece h, hx, hy, Piece.Valid.mark]

theorem valid_commentPieces (address : Word) (opcode : Byte) (operands : List Byte) :
    ∀ p ∈ commentPieces options address opcode operands, p.Valid := by
  have hcomment := not_mem_comment options address opcode operands
  unfold commentPieces
  split
  · simp only [List.forall_mem_cons]
    exact ⟨.blank, .comment fun hmem => hcomment (List.mem_of_mem_drop hmem),
      fun p hp => (by cases hp)⟩
  · intro p hp
    cases hp

/-- Every piece of a line can be read. -/
theorem valid_pieces (h : LowerNames labels) {l : SourceLine}
    (hlabel : ∀ name, l = .label name → IsName name) :
    ∀ p ∈ l.pieces labels options, p.Valid := by
  have hline : Piece.Valid (.mark .newline) := .mark _
  have hnil : ∀ p ∈ ([] : List Piece), p.Valid := fun p hp => (by cases hp)
  cases l with
  | org origin =>
      have horg : Piece.Valid (.directive "org".toList) :=
        .directive (.of_all (by decide) (by decide))
      have hnumber : (Piece.number false (wordDigits origin)).Valid :=
        .number false (areDigits_hexDigits _ (List.cons_ne_nil _ _))
      simp only [SourceLine.pieces, List.forall_mem_cons]
      exact ⟨horg, .blank, hnumber, hline, hnil⟩
  | label name =>
      simp only [SourceLine.pieces, List.forall_mem_cons]
      exact ⟨.word (hlabel name rfl), .mark _, hline, hnil⟩
  | entry address e =>
      cases e with
      | data opcode =>
          have hbyte : Piece.Valid (.directive "byte".toList) :=
            .directive (.of_all (by decide) (by decide))
          simp only [SourceLine.pieces, List.forall_mem_cons]
          exact ⟨hbyte, .blank, valid_number false opcode, hline, hnil⟩
      | code info operands =>
          have hops := valid_operandPieces h info.addressingMode operands address
          have hcomment := valid_commentPieces options address info.opcode operands
          have hmnemonic : Piece.Valid (.word info.mnemonic.name.toList) :=
            .word (isName_mnemonic info.mnemonic)
          unfold SourceLine.pieces
          intro p hp
          obtain rfl | hp := List.mem_cons.mp hp
          · exact hmnemonic
          · obtain hp | hp := List.mem_append.mp hp
            · split at hp
              · cases hp
              · obtain rfl | hp := List.mem_cons.mp hp
                · exact .blank
                · exact hops p hp
            · obtain hp | hp := List.mem_append.mp hp
              · exact hcomment p hp
              · rw [List.mem_singleton.mp hp]
                exact hline

/-- A line goes on to the next one behind its line break. -/
theorem isChain_pieces (h : LowerNames labels) (l : SourceLine) {rest : List Piece}
    (hrest : rest.IsChain Piece.Joins) :
    (l.pieces labels options ++ rest).IsChain Piece.Joins := by
  have hmark : ∀ m name, Piece.mark m ≠ .word name := fun _ _ h => (by cases h)
  have hblank : ∀ name, Piece.blank ≠ .word name := fun _ h => (by cases h)
  have hnumber : ∀ marked digits name, Piece.number marked digits ≠ .word name :=
    fun _ _ _ h => (by cases h)
  have hline : (Piece.mark .newline :: rest).IsChain Piece.Joins :=
    List.isChain_cons.mpr ⟨fun _ _ => trivial, hrest⟩
  cases l with
  | org origin => exact .cons_cons hblank (.cons_cons trivial (.cons_cons (hmark _) hline))
  | label name => exact .cons_cons (hmark _) (.cons_cons trivial hline)
  | entry address e =>
      cases e with
      | data opcode => exact .cons_cons hblank (.cons_cons trivial (.cons_cons (hmark _) hline))
      | code info operands =>
          -- no word starts behind the operand
          have hbehind : (∀ q ∈ (commentPieces options address info.opcode operands ++
                Piece.mark .newline :: rest).head?, ∀ name, q ≠ .word name) ∧
              (commentPieces options address info.opcode operands ++
                Piece.mark .newline :: rest).IsChain Piece.Joins := by
            unfold commentPieces
            split
            · refine ⟨fun q hq => ?_, .cons_cons trivial (.cons_cons rfl hline)⟩
              cases hq
              exact hblank
            · refine ⟨fun q hq => ?_, hline⟩
              cases hq
              exact hmark _
          unfold SourceLine.pieces
          simp only [List.cons_append, List.append_assoc, List.nil_append]
          obtain ⟨hpieces, -⟩ | ⟨operand, -, hpieces⟩ :=
            operandPieces_spec h info.addressingMode operands address
          · rw [hpieces]
            exact List.isChain_cons.mpr hbehind
          · have hops := hpieces.isChain hbehind.1 hbehind.2
            have hne := hpieces.isEmpty
            rw [hne]
            refine .cons_cons hblank (List.isChain_cons.mpr ⟨fun _ _ => trivial, ?_⟩)
            exact hops

end Statements

end Irata2.Sim
