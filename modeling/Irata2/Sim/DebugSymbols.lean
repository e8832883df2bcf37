import Irata2.Base.Types
import Irata2.Sim.Json

/-!
# Debug symbols

What the simulator loads from a debug sidecar, with every check the loader makes.
-/

namespace Irata2.Sim

open Library JsonParser

/-- A line and a column are an `int`. -/
structure SourceLocation where
  file : Text := []
  line : BitVec 32 := 1
  column : BitVec 32 := 1
  text : Text := []
  deriving DecidableEq, Repr

structure DebugRecord where
  address : Word
  romOffset : BitVec 32 := 0
  location : SourceLocation := {}
  deriving DecidableEq, Repr

/-- The unordered maps are lists, in the order of their insertions. -/
structure DebugSymbols where
  version : Text
  entry : Word
  romSize : BitVec 32 := 0
  cartridgeVersion : BitVec 32 := 0
  sourceRoot : Text
  sourceFiles : List Text
  symbols : List (Text × Word)
  pcToSource : List (Word × SourceLocation)
  records : List DebugRecord
  deriving DecidableEq, Repr

def requireObject : JsonValue → Except LoadError (List (Text × JsonValue))
  | .object object => .ok object
  | _ => .error (.sim "expected JSON object")

def requireField (object : JsonValue) (key : String) : Except LoadError JsonValue := do
  let obj ← requireObject object
  match OrderedMap.find obj key.toList with
  | some value => pure value
  | none => .error (.sim ("missing debug symbol field: " ++ key))

def requireString (value : JsonValue) (label : String) : Except LoadError Text :=
  match value with
  | .string string => .ok string
  | _ => .error (.sim ("expected string for " ++ label))

def requireNumber (value : JsonValue) (label : String) : Except LoadError Int :=
  match value with
  | .number number => .ok number
  | _ => .error (.sim ("expected number for " ++ label))

def requireArray (value : JsonValue) (label : String) : Except LoadError (List JsonValue) :=
  match value with
  | .array array => .ok array
  | _ => .error (.sim ("expected array for " ++ label))

/-! ## Addresses -/

/-- `std::isspace` -/
def isSpace (ch : Char) : Bool := ch == ' ' || (9 ≤ ch.toNat && ch.toNat ≤ 13)

/-- A sign in front of a number, and the text behind it. -/
def splitSign : Text → Bool × Text
  | '-' :: text => (true, text)
  | '+' :: text => (false, text)
  | text => (false, text)

/-- The text behind a prefix `0x`, which counts as one only in front of a digit. -/
def dropHexPrefix : Text → Text
  | '0' :: x :: d :: text =>
      if (x = 'x' ∨ x = 'X') ∧ (Digits.digit d).isSome then d :: text else '0' :: x :: d :: text
  | text => text

/-- `std::stoul` in base 16: the number in front of a text, after white space, a sign and a
prefix; `none` when there is no digit, or when the digits exceed 64 bits. -/
def stoul (text : Text) : Option Nat :=
  let (negative, text) := splitSign (text.dropWhile isSpace)
  let digits := (dropHexPrefix text).takeWhile fun ch => (Digits.digit ch).isSome
  let value := Digits.value 16 digits
  if digits.isEmpty ∨ value ≥ 2 ^ 64 then none
  else some (if negative then (2 ^ 64 - value) % 2 ^ 64 else value)

/-- `ParseHexWord` -/
def parseHexWord (value : Text) (label : String) : Except LoadError Word := do
  throwIf (¬"0x".toList.isPrefixOf value ∧ ¬"0X".toList.isPrefixOf value)
    (LoadError.sim ("expected hex value for " ++ label))
  match stoul (value.drop 2) with
  | none => .error (.sim ("invalid hex value for " ++ label))
  | some number => do
      -- the number is cut down to 32 bits before its range is checked
      let parsed : BitVec 32 := BitVec.ofNat 32 number
      throwIf (parsed.toNat > 0xFFFF) (LoadError.sim ("hex value out of range for " ++ label))
      pure (parsed.setWidth 16)

/-! ## The parts of a sidecar -/

/-- `ParseStringArray` -/
def parseStringArray (value : JsonValue) (label : String) : Except LoadError (List Text) := do
  let array ← requireArray value label
  array.mapM fun item => requireString item label

/-- One pass of the loop over `symbols`. -/
def loadSymbol (symbols : List (Text × Word)) (entry : Text × JsonValue) :
    Except LoadError (List (Text × Word)) := do
  let string ← requireString entry.2 "symbols"
  let address ← parseHexWord string "symbols"
  pure (if (OrderedMap.find symbols entry.1).isSome then symbols
    else symbols ++ [(entry.1, address)])

/-- The place in the source, which the loops over `pc_to_source` and over `records` read alike. -/
def loadLocation (owner : String) (value : JsonValue) : Except LoadError SourceLocation := do
  let file ← requireString (← requireField value "file") (owner ++ ".file")
  let line ← requireNumber (← requireField value "line") (owner ++ ".line")
  let column ← requireNumber (← requireField value "column") (owner ++ ".column")
  let line := BitVec.ofInt 32 line
  let column := BitVec.ofInt 32 column
  throwIf (line.toInt < 1 ∨ column.toInt < 1)
    (LoadError.sim (owner ++ " line/column must be positive"))
  let text ← requireString (← requireField value "text") (owner ++ ".text")
  pure ⟨file, line, column, text⟩

/-- One pass of the loop over `pc_to_source`. -/
def loadPcEntry (pcToSource : List (Word × SourceLocation)) (entry : Text × JsonValue) :
    Except LoadError (List (Word × SourceLocation)) := do
  let location ← loadLocation "pc_to_source" entry.2
  let address ← parseHexWord entry.1 "pc_to_source"
  throwIf (OrderedMap.find pcToSource address).isSome
    (LoadError.sim "duplicate pc_to_source address")
  pure (pcToSource ++ [(address, location)])

/-- One pass of the loop over `records`. -/
def loadRecord (romSize : BitVec 32) (value : JsonValue) : Except LoadError DebugRecord := do
  let address ← requireString (← requireField value "address") "record.address"
  let address ← parseHexWord address "record.address"
  let romOffset ← requireNumber (← requireField value "rom_offset") "record.rom_offset"
  throwIf (romOffset < 0 ∨ romOffset ≥ (romSize.toNat : Int))
    (LoadError.sim "record.rom_offset out of range")
  let location ← loadLocation "record" value
  pure ⟨address, BitVec.ofInt 32 romOffset, location⟩

/-- The version of the cartridge is an optional field. -/
def loadCartridgeVersion (obj : List (Text × JsonValue)) : Except LoadError (BitVec 32) :=
  match OrderedMap.find obj "cartridge_version".toList with
  | some (.number number) => do
      throwIf (number < 0) (LoadError.sim "cartridge_version must be non-negative")
      pure (BitVec.ofInt 32 number)
  | _ => .ok 0

/-- `LoadDebugSymbols` on the text of a file. -/
def loadDebugSymbols (content : Text) : Except LoadError DebugSymbols := do
  let root ← parse content
  let obj ← requireObject root
  let version ← requireString (← requireField root "version") "version"
  let entry ← requireString (← requireField root "entry") "entry"
  let entry ← parseHexWord entry "entry"
  let romSize ← requireNumber (← requireField root "rom_size") "rom_size"
  throwIf (romSize ≤ 0) (LoadError.sim "rom_size must be positive")
  let romSize := BitVec.ofInt 32 romSize
  let cartridgeVersion ← loadCartridgeVersion obj
  let sourceRoot ← requireString (← requireField root "source_root") "source_root"
  let sourceFiles ← parseStringArray (← requireField root "source_files") "source_files"
  let symbols ← requireObject (← requireField root "symbols")
  let symbols ← symbols.foldlM loadSymbol []
  let pcs ← requireObject (← requireField root "pc_to_source")
  let pcToSource ← pcs.foldlM loadPcEntry []
  let records ← requireArray (← requireField root "records") "records"
  let records ← records.mapM (loadRecord romSize)
  pure ⟨version, entry, romSize, cartridgeVersion, sourceRoot, sourceFiles, symbols, pcToSource,
    records⟩

/-- `DebugSymbols::Lookup` -/
def DebugSymbols.lookup (symbols : DebugSymbols) (address : Word) : Option SourceLocation :=
  OrderedMap.find symbols.pcToSource address

end Irata2.Sim
