import Irata2.Isa.Instructions
import Irata2.Library.Checks
import Irata2.Library.Table
import Irata2.Microcode.Encoder
import Mathlib.Data.List.Dedup
import Mathlib.Data.List.Sort

/-!
# The microcode compiler

Transformers, validators and optimizers run over the intermediate representation in the order of
`Compiler::Compile`, and the last pass encodes the result as a table of control words.
-/

namespace Irata2.Microcode

open Hdl Library

/-! ## Transformers -/

/-- Applies a pass to every variant. -/
def InstructionSet.mapVariants (f : InstructionVariant → InstructionVariant)
    (is : InstructionSet) : InstructionSet :=
  { is with instructions := is.instructions.map fun i => { i with variants := i.variants.map f } }

def InstructionVariant.mapSteps (f : List Step → List Step) (v : InstructionVariant) :
    InstructionVariant :=
  { v with steps := f v.steps }

def prefixSteps (preamble steps : List Step) : List Step :=
  if preamble.isEmpty then steps
  else preamble ++ steps.map fun s => { s with stage := s.stage + 1 }

def fetchTransformer (is : InstructionSet) : InstructionSet :=
  is.mapVariants (·.mapSteps (prefixSteps is.fetchPreamble))

/-- The control that sequences a step: the last step of a variant resets the counter. -/
def sequenceControl (incrementControl resetControl : Control) (length i : Nat) : Control :=
  if i + 1 = length then resetControl else incrementControl

def sequenceSteps (incrementControl resetControl : Control) (steps : List Step) : List Step :=
  steps.zipIdx.map fun (s, i) =>
    let control := sequenceControl incrementControl resetControl steps.length i
    if control ∈ s.controls then s else { s with controls := s.controls ++ [control] }

def sequenceTransformer (incrementControl resetControl : Control) (is : InstructionSet) :
    InstructionSet :=
  is.mapVariants (·.mapSteps (sequenceSteps incrementControl resetControl))

/-! ## Validators -/

/-- Runs a check on every variant, in order. -/
def forVariants (is : InstructionSet)
    (check : Instruction → InstructionVariant → Except MicrocodeError Unit) :
    Except MicrocodeError Unit :=
  is.instructions.forM fun i => i.variants.forM (check i)

/-- Runs a check on every step of the preamble, as opcode -1, and of every variant. -/
def forSteps (is : InstructionSet) (check : Step → Int → Nat → Except MicrocodeError Unit) :
    Except MicrocodeError Unit := do
  is.fetchPreamble.zipIdx.forM fun (s, i) => check s (-1) i
  forVariants is fun ins v => v.steps.zipIdx.forM fun (s, i) => check s ins.opcode.toNat i

def fetchValidateVariant (preamble : List Step) (i : Instruction) (v : InstructionVariant) :
    Except MicrocodeError Unit := do
  let stageZero := v.steps.filter fun s => s.stage = 0
  throwIf (stageZero.length ≠ preamble.length) (.fetchPreambleMismatch i.opcode)
  (stageZero.zip preamble).zipIdx.forM fun (p, k) =>
    throwIf (p.1.controls ≠ p.2.controls) (.fetchPreambleMismatchAt i.opcode k)

def fetchValidator (is : InstructionSet) : Except MicrocodeError Unit :=
  if is.fetchPreamble.isEmpty then .ok ()
  else forVariants is (fetchValidateVariant is.fetchPreamble)

def busWriters (bus : BusType) (s : Step) : List Control :=
  s.controls.filter fun c => c.bus = some bus && c.phase = .write

def busReaders (bus : BusType) (s : Step) : List Control :=
  s.controls.filter fun c => c.bus = some bus && c.phase = .read

def busValidateStep (s : Step) (opcode : Int) (step : Nat) : Except MicrocodeError Unit := do
  [BusType.data, .address].forM fun bus =>
    throwIf (1 < (busWriters bus s).length)
      (.multipleWriters bus opcode step (busWriters bus s))
  [BusType.data, .address].forM fun bus =>
    throwIf (busReaders bus s ≠ [] ∧ busWriters bus s = [])
      (.readersWithoutWriter bus opcode step (busReaders bus s))

def busValidator (is : InstructionSet) : Except MicrocodeError Unit := forSteps is busValidateStep

/-- Whether a step asserts an operation of a component. -/
def hasOperation (s : Step) (o : Owner) (op : Operation) : Bool :=
  s.controls.any fun c => c.operation = some op && c.owner = o

def conflictKind (s : Step) (o : Owner) : Option ConflictKind :=
  if hasOperation s o .read && hasOperation s o .write then some .readWrite
  else if hasOperation s o .set && hasOperation s o .clear then some .setClear
  else if hasOperation s o .increment && hasOperation s o .decrement then some .incrementDecrement
  else none

/-- The components with a conflict, in the order of their paths. -/
def conflictingComponents (s : Step) : List Owner :=
  ((s.controls.map (·.owner)).filter fun o => (conflictKind s o).isSome).insertionSort
    fun a b => a.path ≤ b.path

def conflictValidateStep (s : Step) (opcode : Int) (step : Nat) : Except MicrocodeError Unit :=
  match conflictingComponents s with
  | [] => .ok ()
  | o :: _ =>
      match conflictKind s o with
      | some kind => .error (.controlConflict kind o opcode step)
      | none => .ok ()

def controlConflictValidator (is : InstructionSet) : Except MicrocodeError Unit :=
  forSteps is conflictValidateStep

/-- The loop that compares each stage with the one before it. -/
def checkMonotonic (error : Nat → Int → Int → MicrocodeError) :
    Int → Nat → List Step → Except MicrocodeError Unit
  | _, _, [] => .ok ()
  | previous, i, s :: rest =>
      if s.stage < previous then .error (error i s.stage previous)
      else checkMonotonic error s.stage (i + 1) rest

/-- The loop over the set of stages, which must be 0, 1, 2 and so on. -/
def checkGaps (error : Int → Int → MicrocodeError) :
    Int → List Int → Except MicrocodeError Unit
  | _, [] => .ok ()
  | expected, stage :: rest =>
      if stage ≠ expected then .error (error expected stage)
      else checkGaps error (expected + 1) rest

def validateStages (start : Int → MicrocodeError) (monotonic : Nat → Int → Int → MicrocodeError)
    (gap : Int → Int → MicrocodeError) (steps : List Step) : Except MicrocodeError Unit :=
  match steps with
  | [] => .ok ()
  | s :: rest => do
      throwIf (s.stage ≠ 0) (start s.stage)
      checkMonotonic monotonic (-1) 0 (s :: rest)
      checkGaps gap 0 (((s :: rest).map (·.stage)).dedup.insertionSort (· ≤ ·))

def stageValidator (is : InstructionSet) : Except MicrocodeError Unit := do
  validateStages .preambleStart .preambleNotMonotonic .preambleGap is.fetchPreamble
  forVariants is fun i v =>
    validateStages (.variantStart i.opcode) (.notMonotonic i.opcode) (.stageGap i.opcode) v.steps

/-- Adds the statuses of one variant to the set of covered statuses. -/
def coverStatuses (opcode : Byte) (covered statuses : List Byte) :
    Except MicrocodeError (List Byte) :=
  statuses.foldlM
    (fun covered s =>
      if s ∈ covered then .error (.overlappingStatus opcode s) else .ok (s :: covered)) covered

def coverVariant (enc : StatusEncoder) (opcode : Byte) (covered : List Byte)
    (v : InstructionVariant) : Except MicrocodeError (List Byte) := do
  throwIf (1 < v.statusConditions.length) (.multipleStatusBits opcode v.statusConditions)
  let statuses ← enc.expandPartial v.statusConditions
  coverStatuses opcode covered statuses

/-- Whether an instruction has a single variant without conditions. -/
def Instruction.isUnconditional (i : Instruction) : Bool :=
  match i.variants with
  | [v] => v.statusConditions.isEmpty
  | _ => false

def statusValidateInstruction (enc : StatusEncoder) (i : Instruction) :
    Except MicrocodeError Unit :=
  if i.isUnconditional then .ok ()
  -- an instruction without variants is valid, though unusual
  else if i.variants.isEmpty then .ok ()
  else do
    let covered ← i.variants.foldlM (coverVariant enc i.opcode) []
    let total := 2 ^ enc.bits.length
    throwIf (covered.length ≠ total)
      (.incompleteStatus i.opcode covered.length total
        (((List.range total).map (BitVec.ofNat 8)).filter fun s => s ∉ covered))

def statusValidator (enc : StatusEncoder) (is : InstructionSet) : Except MicrocodeError Unit :=
  is.instructions.forM (statusValidateInstruction enc)

def coverOpcode (seen : List Byte) (i : Instruction) : Except MicrocodeError (List Byte) :=
  if i.opcode ∉ Isa.instructions.map (·.opcode) then .error (.unknownOpcode i.opcode)
  else if i.opcode ∈ seen then .error (.duplicateOpcode i.opcode)
  else .ok (i.opcode :: seen)

def isaCoverageValidator (is : InstructionSet) : Except MicrocodeError Unit := do
  let seen ← is.instructions.foldlM coverOpcode []
  throwIf (seen.length ≠ Isa.instructions.length)
    (.notAllImplemented Isa.instructions.length seen.length)

def sequenceValidator (incrementControl resetControl : Control) (is : InstructionSet) :
    Except MicrocodeError Unit :=
  forVariants is fun ins v => v.steps.zipIdx.forM fun (s, i) =>
    throwIf (sequenceControl incrementControl resetControl v.steps.length i ∉ s.controls)
      (.sequenceControlMissing ins.opcode i)

/-! ## Optimizers -/

/-- Applies an optimizer to the preamble and to every variant. -/
def InstructionSet.optimize (f : List Step → List Step) (is : InstructionSet) : InstructionSet :=
  { is.mapVariants (·.mapSteps f) with fetchPreamble := f is.fetchPreamble }

def removeEmptySteps (steps : List Step) : List Step := steps.filter fun s => !s.controls.isEmpty

/-- Drops every step that equals the last one kept. -/
def dedupSteps (last : Step) : List Step → List Step
  | [] => [last]
  | s :: rest => if s = last then dedupSteps last rest else last :: dedupSteps s rest

def removeDuplicateSteps : List Step → List Step
  | [] => []
  | s :: rest => dedupSteps s rest

def maxPhase (s : Step) : TickPhase :=
  s.controls.foldl (fun phase c => if phase.toNat < c.phase.toNat then c.phase else phase) .none

def minPhase (s : Step) : TickPhase :=
  s.controls.foldl (fun phase c => if c.phase.toNat < phase.toNat then c.phase else phase) .clear

/-- Whether every control of `a` acts in an earlier phase than every control of `b`. -/
def stepStrictlyPrecedes (a b : Step) : Bool :=
  if a.controls.isEmpty then true
  else if b.controls.isEmpty then false
  else (maxPhase a).toNat < (minPhase b).toNat

def canMerge (a b : Step) : Bool := a.stage = b.stage && stepStrictlyPrecedes a b

def mergeSteps (a b : Step) : Step :=
  { a with
    controls := b.controls.foldl (fun cs c => if c ∈ cs then cs else cs ++ [c]) a.controls }

/-- Merges every step into the last one kept, as far as their phases allow. -/
def mergeInto (last : Step) : List Step → List Step
  | [] => [last]
  | s :: rest =>
      if canMerge last s then mergeInto (mergeSteps last s) rest else last :: mergeInto s rest

def mergeAdjacentSteps : List Step → List Step
  | [] => []
  | s :: rest => mergeInto s rest

/-! ## The compiler -/

structure Compiler where
  statusEncoder : StatusEncoder
  incrementControl : Control
  resetControl : Control

namespace Compiler

def runAllValidators (c : Compiler) (is : InstructionSet) : Except MicrocodeError Unit := do
  busValidator is
  controlConflictValidator is
  stageValidator is
  statusValidator c.statusEncoder is
  isaCoverageValidator is
  sequenceValidator c.incrementControl c.resetControl is

/-- The passes of `Compile` up to the encoding; the result is the optimised representation. -/
def optimizedIr (c : Compiler) (is : InstructionSet) : Except MicrocodeError InstructionSet := do
  let is := fetchTransformer is
  fetchValidator is
  let is := sequenceTransformer c.incrementControl c.resetControl is
  c.runAllValidators is
  let is := is.optimize removeEmptySteps
  c.runAllValidators is
  let is := is.optimize removeDuplicateSteps
  c.runAllValidators is
  let is := is.optimize mergeAdjacentSteps
  c.runAllValidators is
  pure is

abbrev MicrocodeTable := List (Nat × ControlWord)

def emplaceWord (opcode : Byte) (step : Nat) (word : ControlWord) (table : MicrocodeTable)
    (status : Byte) : Except MicrocodeError MicrocodeTable :=
  match Table.emplace table (encodeKey ⟨opcode, BitVec.ofNat 8 step, status⟩) word with
  | some table => .ok table
  | none => .error (.microcodeConflict ⟨opcode, BitVec.ofNat 8 step, status⟩)

def encodeStep (opcode : Byte) (statuses : List Byte) (table : MicrocodeTable) (s : Step × Nat) :
    Except MicrocodeError MicrocodeTable :=
  if 0xFF < s.2 then .error (.stepIndexOutOfRange s.2)
  else statuses.foldlM (emplaceWord opcode s.2 (encodeControls s.1.controls)) table

def encodeVariant (enc : StatusEncoder) (opcode : Byte) (table : MicrocodeTable)
    (v : InstructionVariant) : Except MicrocodeError MicrocodeTable := do
  let statuses ← enc.expandPartial v.statusConditions
  v.steps.zipIdx.foldlM (encodeStep opcode statuses) table

def encodeInstruction (enc : StatusEncoder) (table : MicrocodeTable) (i : Instruction) :
    Except MicrocodeError MicrocodeTable :=
  i.variants.foldlM (encodeVariant enc i.opcode) table

def encode (c : Compiler) (is : InstructionSet) : Except MicrocodeError MicrocodeProgram := do
  let table ← is.instructions.foldlM (encodeInstruction c.statusEncoder) []
  pure ⟨table, controlPaths, c.statusEncoder.bits⟩

def compile (c : Compiler) (is : InstructionSet) : Except MicrocodeError MicrocodeProgram := do
  let ir ← c.optimizedIr is
  c.encode ir

end Compiler

end Irata2.Microcode
