import Irata2.Assembler.DebugJson
import Irata2.Assembler.Include
import Irata2.Isa.Instructions

/-!
# The two passes of the assembler

The first pass gives every statement its address and collects the labels and the constants; the
second encodes the statements that emit bytes.  A `uint32_t` is a natural number below `2 ^ 32`
where the source computes with it.
-/

namespace Irata2.Assembler

open Library

structure AssemblerOptions where
  origin : Word := 0x8000
  romSize : BitVec 32 := 0x8000

structure AssemblerResult where
  header : CartridgeHeader
  rom : List Byte
  debugJson : Text
  deriving DecidableEq

inductive EmittableKind
  | instruction
  | bytes
  deriving DecidableEq, Repr

structure Emittable where
  address : Word
  span : Span
  text : Text
  kind : EmittableKind := .instruction
  addressingMode : Isa.AddressingMode := .imp
  opcode : Byte := 0
  operandBytes : Nat := 0
  operands : List Operand := []
  deriving DecidableEq, Repr

/-! ## Texts of statements -/

/-- `FormatOperand` of the assembler -/
def formatOperand (operand : Operand) : Text :=
  match operand.kind with
  | .number => Nat.toDigits 10 operand.number.toNat
  | .label => operand.label

/-- The operands behind a mnemonic or a directive. -/
def formatOperands (operands : List Operand) : Text :=
  if operands.isEmpty then [] else ' ' :: separated ", ".toList [] formatOperand operands

def formatInstructionText (stmt : InstructionStmt) : Text :=
  stmt.mnemonic ++ formatOperands stmt.operands

def formatDirectiveText (stmt : DirectiveStmt) : Text :=
  (if stmt.type = .org then ".org".toList else ".byte".toList) ++ formatOperands stmt.operands

/-! ## Selection of the instruction -/

def findInstructionByMnemonicAndMode (mnemonic : Text) (mode : Isa.AddressingMode) :
    Option Isa.InstructionInfo :=
  Isa.instructions.find? fun inst =>
    toLower inst.mnemonic.name.toList = toLower mnemonic ∧ inst.addressingMode = mode

def relativeMnemonics : List Text :=
  ["beq".toList, "bne".toList, "bcs".toList, "bcc".toList, "bmi".toList, "bpl".toList,
    "bvs".toList, "bvc".toList]

def isRelativeMnemonic (mnemonic : Text) : Bool := toLower mnemonic ∈ relativeMnemonics

/-- The addressing modes to try, in order. -/
def candidates (stmt : InstructionStmt) : Except AssemblerError (List Isa.AddressingMode) :=
  match stmt.operands with
  | [] => .ok [.imp]
  | [operand] =>
      let zeroPage := operand.kind = .number ∧ operand.number.toNat ≤ 0xFF
      if isRelativeMnemonic stmt.mnemonic then
        if operand.immediate then
          .error ⟨stmt.span, "relative branches do not use immediate operands"⟩
        else .ok [.rel]
      else if operand.indirect then
        match operand.indexRegister with
        | .x => .ok [.izx]
        | .y => .ok [.izy]
        | .none => .ok [.ind]
      else if operand.immediate then .ok [.imm]
      else
        match operand.indexRegister with
        | .x => .ok (if zeroPage then [.zpx, .abx] else [.abx])
        | .y => .ok (if zeroPage then [.zpy, .aby] else [.aby])
        | .none =>
            match operand.kind with
            | .number => .ok (if operand.number.toNat ≤ 0xFF then [.zp, .abs] else [.abs])
            | .label => .ok [.abs, .zp]
  | _ => .error ⟨stmt.span, "unexpected operand count"⟩

/-- `SelectInstruction` -/
def selectInstruction (stmt : InstructionStmt) : Except AssemblerError Isa.InstructionInfo := do
  let modes ← candidates stmt
  match modes.findSome? (findInstructionByMnemonicAndMode stmt.mnemonic) with
  | some info => pure info
  | none => .error ⟨stmt.span, "unsupported addressing mode"⟩

/-! ## The first pass -/

/-- `FirstPassResult`, with the cursor. -/
structure FirstPassResult where
  items : List Emittable := []
  symbols : List (Text × Word) := []
  constants : List (Text × BitVec 32) := []
  maxAddress : Word
  cursor : Nat

def validateCursor (addr : Nat) (span : Span) : Except AssemblerError Unit :=
  throwIf (addr > 0xFFFF) ⟨span, "address overflow"⟩

/-- `cursor + size - 1`, in 32 bits -/
def lastByte (cursor size : Nat) : Nat := (cursor + size + (2 ^ 32 - 1)) % 2 ^ 32

/-- `cursor + size`, in 32 bits -/
def nextCursor (cursor size : Nat) : Nat := (cursor + size) % 2 ^ 32

/-- `UpdateMaxAddress` -/
def updateMaxAddress (maxAddress : Word) (lastAddr : Nat) : Word :=
  if lastAddr ≤ 0xFFFF ∧ lastAddr > maxAddress.toNat then BitVec.ofNat 16 lastAddr else maxAddress

/-- Adds an item of a size at the cursor, and moves the cursor behind it. -/
def FirstPassResult.emit (result : FirstPassResult) (item : Emittable) (size : Nat) :
    Except AssemblerError FirstPassResult := do
  validateCursor result.cursor item.span
  validateCursor (lastByte result.cursor size) item.span
  pure { result with
    items := result.items ++ [item]
    maxAddress := updateMaxAddress result.maxAddress (lastByte result.cursor size)
    cursor := nextCursor result.cursor size }

def FirstPassResult.addLabel (result : FirstPassResult) (label : LabelDecl) :
    Except AssemblerError FirstPassResult := do
  throwIf (OrderedMap.find result.symbols label.name).isSome
    (⟨label.span, "duplicate label"⟩ : AssemblerError)
  validateCursor result.cursor label.span
  pure { result with
    symbols := result.symbols ++ [(label.name, BitVec.ofNat 16 result.cursor)] }

def FirstPassResult.addConstant (result : FirstPassResult) (equ : EquDecl) :
    Except AssemblerError FirstPassResult := do
  throwIf (OrderedMap.find result.constants equ.name).isSome
    (⟨equ.span, "duplicate constant"⟩ : AssemblerError)
  throwIf (OrderedMap.find result.symbols equ.name).isSome
    (⟨equ.span, "constant name conflicts with label"⟩ : AssemblerError)
  pure { result with constants := result.constants ++ [(equ.name, equ.value)] }

def FirstPassResult.addOrg (options : AssemblerOptions) (result : FirstPassResult)
    (directive : DirectiveStmt) : Except AssemblerError FirstPassResult :=
  match directive.operands with
  | [operand] => do
      throwIf (operand.kind ≠ .number)
        (⟨operand.span, ".org requires numeric literal"⟩ : AssemblerError)
      throwIf (operand.number.toNat > 0xFFFF)
        (⟨operand.span, "origin out of range"⟩ : AssemblerError)
      throwIf (operand.number.toNat < options.origin.toNat)
        (⟨operand.span, "origin below entry point"⟩ : AssemblerError)
      pure { result with cursor := operand.number.toNat }
  | _ => .error ⟨directive.span, ".org requires one operand"⟩

def FirstPassResult.addBytes (result : FirstPassResult) (directive : DirectiveStmt) :
    Except AssemblerError FirstPassResult := do
  throwIf directive.operands.isEmpty
    (⟨directive.span, ".byte requires at least one operand"⟩ : AssemblerError)
  result.emit
    { kind := .bytes, address := BitVec.ofNat 16 result.cursor, span := directive.span,
      text := formatDirectiveText directive, operands := directive.operands }
    (directive.operands.length % 2 ^ 32)

def FirstPassResult.addInstruction (result : FirstPassResult) (instruction : InstructionStmt) :
    Except AssemblerError FirstPassResult := do
  let info ← selectInstruction instruction
  result.emit
    { kind := .instruction, address := BitVec.ofNat 16 result.cursor, span := instruction.span,
      text := formatInstructionText instruction, opcode := info.opcode,
      addressingMode := info.addressingMode, operandBytes := info.addressingMode.operands,
      operands := instruction.operands }
    (1 + info.addressingMode.operands)

/-- One pass of the loop of `FirstPass`. -/
def FirstPassResult.add (options : AssemblerOptions) (result : FirstPassResult) :
    Statement → Except AssemblerError FirstPassResult
  | .label label => result.addLabel label
  | .equ equ => result.addConstant equ
  | .instruction instruction => result.addInstruction instruction
  | .directive directive =>
      match directive.type with
      | .org => result.addOrg options directive
      | .byte => result.addBytes directive
      | .include => .ok result

/-- `FirstPass` -/
def firstPass (program : Program) (options : AssemblerOptions) :
    Except AssemblerError FirstPassResult :=
  program.statements.foldlM (FirstPassResult.add options)
    { maxAddress := options.origin, cursor := options.origin.toNat }

/-! ## Operands -/

section Operands

variable (symbols : List (Text × Word)) (constants : List (Text × BitVec 32))

def resolveByteOperand (operand : Operand) : Except AssemblerError Byte :=
  match operand.kind with
  | .number => do
      throwIf (operand.number.toNat > 0xFF)
        (⟨operand.span, "byte literal out of range"⟩ : AssemblerError)
      pure (operand.number.setWidth 8)
  | .label =>
      match OrderedMap.find constants operand.label with
      | some value => do
          throwIf (value.toNat > 0xFF)
            (⟨operand.span, "constant value out of byte range"⟩ : AssemblerError)
          pure (value.setWidth 8)
      | none =>
          match OrderedMap.find symbols operand.label with
          | none => .error ⟨operand.span, "unknown label or constant"⟩
          | some value => do
              throwIf (value.toNat > 0xFF)
                (⟨operand.span, "label out of byte range"⟩ : AssemblerError)
              pure (value.setWidth 8)

def resolveWordOperand (operand : Operand) : Except AssemblerError Word :=
  match operand.kind with
  | .number => do
      throwIf (operand.number.toNat > 0xFFFF)
        (⟨operand.span, "word literal out of range"⟩ : AssemblerError)
      pure (operand.number.setWidth 16)
  | .label =>
      match OrderedMap.find constants operand.label with
      | some value => do
          throwIf (value.toNat > 0xFFFF)
            (⟨operand.span, "constant value out of word range"⟩ : AssemblerError)
          pure (value.setWidth 16)
      | none =>
          match OrderedMap.find symbols operand.label with
          | none => .error ⟨operand.span, "unknown label or constant"⟩
          | some value => .ok value

/-- The target of a branch. -/
def resolveTarget (operand : Operand) : Except AssemblerError Nat :=
  match operand.kind with
  | .number => do
      throwIf (operand.number.toNat > 0xFFFF)
        (⟨operand.span, "relative branch target out of range"⟩ : AssemblerError)
      pure operand.number.toNat
  | .label =>
      match OrderedMap.find constants operand.label with
      | some value => do
          throwIf (value.toNat > 0xFFFF)
            (⟨operand.span, "constant value out of address range"⟩ : AssemblerError)
          pure value.toNat
      | none =>
          match OrderedMap.find symbols operand.label with
          | none => .error ⟨operand.span, "unknown label or constant"⟩
          | some value => .ok value.toNat

def resolveRelativeOperand (operand : Operand) (instructionAddress : Word) :
    Except AssemblerError Byte := do
  let target ← resolveTarget symbols constants operand
  let base : Int := instructionAddress.toNat + 2
  let offset : Int := target - base
  throwIf (offset < -128 ∨ offset > 127)
    (⟨operand.span, "relative branch out of range"⟩ : AssemblerError)
  pure (BitVec.ofInt 8 offset)

end Operands

/-! ## The second pass -/

/-- The paths of the host: those of the include processor, and what the second pass asks of a
`std::filesystem::path`. -/
structure Host (Path : Type) extends FileSystem Path where
  ofText : Text → Path
  isEmpty : Path → Bool
  lexicallyRelative : Path → Path → Path
  filename : Path → Path
  currentPath : Path

namespace Host

variable {Path : Type} (host : Host Path)

/-- `source_path` -/
def sourcePath (sourceFile : Text) : Path :=
  host.ofText (if sourceFile.isEmpty then "unknown.asm".toList else sourceFile)

/-- `source_root` -/
def sourceRoot (sourceFile : Text) : Text :=
  let rootPath := host.parentPath (host.sourcePath sourceFile)
  if host.isEmpty rootPath then ".".toList else host.string rootPath

/-- `RelativeToRoot` -/
def relativeToRoot (sourceFile file : Text) : Text :=
  let rootPath := host.parentPath (host.sourcePath sourceFile)
  let path := if file.isEmpty then host.sourcePath sourceFile else host.ofText file
  if host.isEmpty rootPath then host.string path
  else
    let relative := host.lexicallyRelative path rootPath
    if host.isEmpty relative then host.string (host.filename path) else host.string relative

end Host

/-- What the second pass has written so far. -/
structure Encoding where
  rom : List Byte
  sourceFiles : List Text := []
  records : List DebugRecord := []

section Encode

variable {Path : Type} (host : Host Path) (sourceFile : Text) (options : AssemblerOptions)
  (pass : FirstPassResult)

/-- `TrackSourceFile` -/
def Encoding.trackSourceFile (encoding : Encoding) (relative : Text) : Encoding :=
  if relative ∈ encoding.sourceFiles then encoding
  else { encoding with sourceFiles := encoding.sourceFiles ++ [relative] }

/-- Writes a byte of the ROM. -/
def Encoding.store (encoding : Encoding) (offset : Nat) (value : Byte) : Encoding :=
  { encoding with rom := encoding.rom.set offset value }

/-- `AddRecord` -/
def Encoding.addRecord (encoding : Encoding) (span : Span) (address : Word) (offset : Nat)
    (text : Text) : Encoding :=
  let file := host.relativeToRoot sourceFile span.file
  let encoding := encoding.trackSourceFile file
  { encoding with
    records := encoding.records ++
      [{ address, romOffset := BitVec.ofNat 32 offset, file, line := BitVec.ofNat 32 span.line,
         column := BitVec.ofNat 32 span.column, text }] }

/-- Writes a byte of an item, `i` bytes behind its first. -/
def Encoding.write (encoding : Encoding) (item : Emittable) (i : Nat) (value : Byte) : Encoding :=
  let address := item.address.toNat
  let offset := address - options.origin.toNat
  (encoding.store (offset + i) value).addRecord host sourceFile item.span
    (BitVec.ofNat 16 (address + i)) (offset + i) item.text

def Encoding.addInstruction (encoding : Encoding) (item : Emittable) :
    Except AssemblerError Encoding :=
  let offset := item.address.toNat - options.origin.toNat
  let encoding := encoding.write host sourceFile options item 0 item.opcode
  if item.operandBytes = 1 then
    match item.operands with
    | [] => .error ⟨item.span, "missing operand"⟩
    | operand :: _ => do
        let value ← if item.addressingMode = .rel then
            resolveRelativeOperand pass.symbols pass.constants operand item.address
          else resolveByteOperand pass.symbols pass.constants operand
        throwIf (offset + 1 ≥ encoding.rom.length)
          (⟨item.span, "address exceeds cartridge size"⟩ : AssemblerError)
        pure (encoding.write host sourceFile options item 1 value)
  else if item.operandBytes = 2 then
    match item.operands with
    | [] => .error ⟨item.span, "missing operand"⟩
    | operand :: _ => do
        let value ← resolveWordOperand pass.symbols pass.constants operand
        throwIf (offset + 2 ≥ encoding.rom.length)
          (⟨item.span, "address exceeds cartridge size"⟩ : AssemblerError)
        pure ((encoding.write host sourceFile options item 1 (value &&& 0xFF |>.setWidth 8)).write
          host sourceFile options item 2 ((value >>> 8) &&& 0xFF |>.setWidth 8))
  else if item.operandBytes ≠ 0 then .error ⟨item.span, "unsupported operand width"⟩
  else .ok encoding

/-- The loop over the operands of a byte directive; `i` counts them. -/
def Encoding.addBytes (item : Emittable) :
    Encoding → Nat → List Operand → Except AssemblerError Encoding
  | encoding, _, [] => .ok encoding
  | encoding, i, operand :: operands => do
      let offset := item.address.toNat - options.origin.toNat
      let target := (offset + i % 2 ^ 32) % 2 ^ 32
      throwIf (target ≥ encoding.rom.length)
        (⟨item.span, "byte write exceeds cartridge size"⟩ : AssemblerError)
      let value ← resolveByteOperand pass.symbols pass.constants operand
      let encoding := (encoding.store target value).addRecord host sourceFile item.span
        (BitVec.ofNat 16 (item.address.toNat + i)) target item.text
      addBytes item encoding (i + 1) operands

/-- One pass of the loop of `Encode`. -/
def Encoding.add (encoding : Encoding) (item : Emittable) : Except AssemblerError Encoding := do
  throwIf (item.address.toNat < options.origin.toNat)
    (⟨item.span, "address below entry point"⟩ : AssemblerError)
  throwIf (item.address.toNat - options.origin.toNat ≥ encoding.rom.length)
    (⟨item.span, "address exceeds cartridge size"⟩ : AssemblerError)
  match item.kind with
  | .instruction => encoding.addInstruction host sourceFile options pass item
  | .bytes => Encoding.addBytes host sourceFile options pass item encoding 0 item.operands

/-- `Encode` -/
def encode : Except AssemblerError AssemblerResult := do
  let origin := options.origin.toNat
  let maxAddress := if pass.maxAddress.toNat < origin then origin else pass.maxAddress.toNat
  throwIf (maxAddress - origin > options.romSize.toNat)
    (⟨{}, "program exceeds cartridge size"⟩ : AssemblerError)
  let encoding : Encoding := { rom := List.replicate options.romSize.toNat 0xFF }
  let encoding ← pass.items.foldlM (Encoding.add host sourceFile options pass) encoding
  let header : CartridgeHeader :=
    { entry := options.origin, romSize := BitVec.ofNat 32 encoding.rom.length }
  let sourceFiles :=
    if encoding.sourceFiles.isEmpty then
      [host.relativeToRoot sourceFile (host.string (host.sourcePath sourceFile))]
    else encoding.sourceFiles
  pure
    { header, rom := encoding.rom,
      debugJson := encodeDebugJson header "v1".toList (host.sourceRoot sourceFile) sourceFiles
        pass.symbols encoding.records }

end Encode

/-! ## Assembling -/

section Assemble

variable {Path : Type} [DecidableEq Path] (host : Host Path)

/-- The directory of a source file, in which its include directives are looked up. -/
def Host.baseDir (filename : Text) : Path :=
  let dir := host.parentPath (host.ofText filename)
  if host.isEmpty dir then host.currentPath else dir

/-- The statements of a source, with its include directives replaced; `none` while the include
processor is still running. -/
def expand (levels : Nat) (source filename : Text) :
    Option (Except (IncludeError Path) Program) :=
  match lex source filename >>= parse with
  | .error e => some (.error (.assembler e))
  | .ok program => process host.toFileSystem levels program (host.baseDir filename)

/-- The two passes over a program. -/
def assembleProgram (program : Program) (filename : Text) (options : AssemblerOptions) :
    Except AssemblerError AssemblerResult := do
  let pass ← firstPass program options
  encode host filename options pass

/-- `Assemble` -/
def assemble (levels : Nat) (source filename : Text) (options : AssemblerOptions) :
    Option (Except (IncludeError Path) AssemblerResult) :=
  (expand host levels source filename).map fun outcome =>
    outcome.bind fun program =>
      match assembleProgram host program filename options with
      | .ok result => .ok result
      | .error e => .error (.assembler e)

end Assemble

end Irata2.Assembler
