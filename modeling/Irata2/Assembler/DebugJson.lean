import Irata2.Assembler.Ast
import Irata2.Assembler.Cartridge
import Irata2.Library.OrderedMap
import Mathlib.Data.String.Basic

/-!
# Debug sidecars, as the assembler writes them

A JSON text with the symbols of a program and the source line of every instruction.
-/

namespace Irata2.Assembler

open Library

/-- A statement of the source and the place of its bytes; a line and a column are an `int`. -/
structure DebugRecord where
  address : Word
  romOffset : BitVec 32 := 0
  file : Text := []
  line : BitVec 32 := 1
  column : BitVec 32 := 1
  text : Text := []
  deriving DecidableEq, Repr

def escapeChar (ch : Char) : Text :=
  if ch = '"' then "\\\"".toList
  else if ch = '\\' then "\\\\".toList
  else if ch = '\n' then "\\n".toList
  else if ch = '\r' then "\\r".toList
  else if ch = '\t' then "\\t".toList
  else if ch.toNat < 0x20 then "\\u".toList ++ List.leftpad 4 '0' (Nat.toDigits 16 ch.toNat)
  else [ch]

/-- `EscapeJson` -/
def escapeJson (value : Text) : Text := value.flatMap escapeChar

def quote (value : Text) : Text := "\"".toList ++ escapeJson value ++ "\"".toList

/-- An address between quotes. -/
def quoteHex (value : Word) : Text :=
  "\"0x".toList ++ Nat.toDigits 16 value.toNat ++ "\"".toList

/-- An `int`, as a stream prints it. -/
def decimal (value : BitVec 32) : Text :=
  if value.toInt < 0 then '-' :: Nat.toDigits 10 value.toInt.natAbs
  else Nat.toDigits 10 value.toInt.natAbs

/-- The items of a loop, a comma behind each but the last, and `newline` behind each. -/
def separated {α : Type} (comma newline : Text) (item : α → Text) : List α → Text
  | [] => []
  | [x] => item x ++ newline
  | x :: y :: xs => item x ++ comma ++ newline ++ separated comma newline item (y :: xs)

def wordBefore (a b : Word) : Bool := decide (a.toNat < b.toNat)

def encodeSymbol (symbol : Text × Word) : Text :=
  "    ".toList ++ quote symbol.1 ++ ": ".toList ++ quoteHex symbol.2

def encodeLocation (record : DebugRecord) : Text :=
  "\"file\": ".toList ++ quote record.file ++ ", ".toList ++
  "\"line\": ".toList ++ decimal record.line ++ ", ".toList ++
  "\"column\": ".toList ++ decimal record.column ++ ", ".toList ++
  "\"text\": ".toList ++ quote record.text

def encodePcEntry (entry : Word × DebugRecord) : Text :=
  "    ".toList ++ quoteHex entry.1 ++ ": \x7b".toList ++ encodeLocation entry.2 ++ "\x7d".toList

def encodeRecord (record : DebugRecord) : Text :=
  "    \x7b\"address\": ".toList ++ quoteHex record.address ++ ", ".toList ++
  "\"rom_offset\": ".toList ++ Nat.toDigits 10 record.romOffset.toNat ++ ", ".toList ++
  encodeLocation record ++ "\x7d".toList

/-- `sorted_symbols` -/
def sortedSymbols (symbols : List (Text × Word)) : List (Text × Word) :=
  OrderedMap.emplaceAll OrderedMap.textBefore [] symbols

/-- The first record of each address. -/
def pcEntries (records : List DebugRecord) : List (Word × DebugRecord) :=
  OrderedMap.emplaceAll wordBefore [] (records.map fun record => (record.address, record))

/-- `EncodeDebugJson` -/
def encodeDebugJson (header : CartridgeHeader) (schemaVersion sourceRoot : Text)
    (sourceFiles : List Text) (symbols : List (Text × Word)) (records : List DebugRecord) :
    Text :=
  let sorted := sortedSymbols symbols
  "\x7b\n".toList ++
  "  \"version\": ".toList ++ quote schemaVersion ++ ",\n".toList ++
  "  \"cartridge_version\": ".toList ++ Nat.toDigits 10 header.version.toNat ++ ",\n".toList ++
  "  \"entry\": ".toList ++ quoteHex header.entry ++ ",\n".toList ++
  "  \"rom_size\": ".toList ++ Nat.toDigits 10 header.romSize.toNat ++ ",\n".toList ++
  "  \"source_root\": ".toList ++ quote sourceRoot ++ ",\n".toList ++
  "  \"source_files\": [".toList ++ separated ", ".toList [] quote sourceFiles ++ "],\n".toList ++
  "  \"symbols\": \x7b".toList ++
  (if sorted.isEmpty then []
   else "\n".toList ++ separated ",".toList "\n".toList encodeSymbol sorted ++ "  ".toList) ++
  "\x7d,\n".toList ++
  "  \"pc_to_source\": \x7b\n".toList ++
  separated ",".toList "\n".toList encodePcEntry (pcEntries records) ++
  "  \x7d,\n".toList ++
  "  \"records\": [\n".toList ++
  separated ",".toList "\n".toList encodeRecord records ++
  "  ]\n".toList ++
  "\x7d\n".toList

end Irata2.Assembler
