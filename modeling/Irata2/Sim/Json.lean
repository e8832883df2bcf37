import Irata2.Library.Checks
import Irata2.Library.Digits
import Irata2.Library.OrderedMap
import Mathlib.Data.String.Basic

/-!
# The simulator's JSON parser

A recursive-descent parser for one JSON document.  An object is a `std::map`: a list of members in
the order of their names, where the first member of a name stays.
-/

namespace Irata2.Sim

open Library

abbrev Text := List Char

inductive JsonValue
  | null
  | bool (boolean : Bool)
  | number (number : Int)
  | string (string : Text)
  | array (array : List JsonValue)
  | object (object : List (Text × JsonValue))

/-- What the loader of debug symbols throws.  `outOfRange` is the exception of `std::stoll`, which
is no `SimError`; `depth` is the end of the model's recursion and never of the source's. -/
inductive LoadError
  | sim (message : String)
  | outOfRange
  | depth
  deriving DecidableEq, Repr

namespace JsonParser

def skipWhitespace : Text → Text
  | [] => []
  | ch :: rest =>
      if ch = ' ' ∨ ch = '\t' ∨ ch = '\n' ∨ ch = '\r' then skipWhitespace rest else ch :: rest

/-- The next character, and the null character at the end of the text. -/
def peek (text : Text) : Char := text.headD (Char.ofNat 0)

def consume (expected : Char) (text : Text) : Except LoadError Text :=
  if peek text ≠ expected then .error (.sim "unexpected JSON token") else .ok text.tail

/-- `Match` -/
def matchToken (token text : Text) : Option Text :=
  if token.isPrefixOf text then some (text.drop token.length) else none

/-! ## Strings -/

def unescape (esc : Char) : Option Char :=
  if esc = '"' then some '"'
  else if esc = '\\' then some '\\'
  else if esc = '/' then some '/'
  else if esc = 'b' then some (Char.ofNat 8)
  else if esc = 'f' then some (Char.ofNat 12)
  else if esc = 'n' then some '\n'
  else if esc = 'r' then some '\r'
  else if esc = 't' then some '\t'
  else none

def parseUnicodeDigit (value : Nat) (ch : Char) : Except LoadError Nat :=
  match Digits.digit ch with
  | some digit => .ok ((value <<< 4) + digit)
  | none => .error (.sim "invalid unicode escape in JSON string")

/-- `ParseUnicodeEscape`: the byte of an ASCII code, and a question mark for every other. -/
def parseUnicodeEscape (digits : Text) : Except LoadError Char := do
  let value ← digits.foldlM parseUnicodeDigit 0
  pure (if value < 0x80 then Char.ofNat value else '?')

/-- The characters up to the closing quote. -/
def parseStringBody : Text → Text → Except LoadError (Text × Text)
  | [], _ => .error (.sim "unterminated JSON string")
  | ch :: rest, out =>
      if ch = '"' then .ok (out, rest)
      else if ch = '\\' then
        match rest with
        | [] => .error (.sim "unterminated escape sequence in JSON string")
        | esc :: rest =>
            if esc = 'u' then
              match rest with
              | a :: b :: c :: d :: rest =>
                  (parseUnicodeEscape [a, b, c, d]).bind fun ch => parseStringBody rest (out ++ [ch])
              | _ => .error (.sim "truncated unicode escape in JSON string")
            else
              match unescape esc with
              | some ch => parseStringBody rest (out ++ [ch])
              | none => .error (.sim "invalid escape sequence in JSON string")
      else parseStringBody rest (out ++ [ch])

def parseString (text : Text) : Except LoadError (Text × Text) := do
  let rest ← consume '"' text
  parseStringBody rest []

/-! ## Numbers -/

/-- `std::stoll` on an optional sign and digits. -/
def stoll (negative : Bool) (digits : Text) : Except LoadError Int :=
  let value : Int := if negative then -(Digits.value 10 digits) else Digits.value 10 digits
  if value < -2 ^ 63 ∨ value ≥ 2 ^ 63 then .error .outOfRange else .ok value

def parseNumber (text : Text) : Except LoadError (Int × Text) := do
  let negative := peek text == '-'
  let rest := if negative then text.tail else text
  let digits := rest.takeWhile Char.isDigit
  throwIf digits.isEmpty (LoadError.sim "invalid number in JSON")
  let value ← stoll negative digits
  pure (value, rest.dropWhile Char.isDigit)

/-! ## Objects, arrays and values -/

section Loops

-- `value` parses the values inside
variable (value : Text → Except LoadError (JsonValue × Text))

def parseMember (text : Text) : Except LoadError ((Text × JsonValue) × Text) := do
  let (key, rest) ← parseString (skipWhitespace text)
  let rest ← consume ':' (skipWhitespace rest)
  let (v, rest) ← value rest
  pure ((key, v), rest)

/-- The loop of `ParseObject`. -/
def parseMembers :
    Nat → List (Text × JsonValue) → Text → Except LoadError (List (Text × JsonValue) × Text)
  | 0, _, _ => .error .depth
  | fuel + 1, object, text => do
      let (member, rest) ← parseMember value text
      let object := OrderedMap.emplace OrderedMap.textBefore object member.1 member.2
      let rest := skipWhitespace rest
      if peek rest = '}' then pure (object, rest.tail)
      else
        let rest ← consume ',' rest
        parseMembers fuel object rest

/-- The loop of `ParseArray`. -/
def parseElements : Nat → List JsonValue → Text → Except LoadError (List JsonValue × Text)
  | 0, _, _ => .error .depth
  | fuel + 1, array, text => do
      let (v, rest) ← value text
      let array := array ++ [v]
      let rest := skipWhitespace rest
      if peek rest = ']' then pure (array, rest.tail)
      else
        let rest ← consume ',' rest
        parseElements fuel array rest

/-- `ParseObject`, behind the opening brace. -/
def parseObject (fuel : Nat) (text : Text) : Except LoadError (JsonValue × Text) :=
  let rest := skipWhitespace text
  if peek rest = '}' then .ok (.object [], rest.tail)
  else do
    let (object, rest) ← parseMembers value fuel [] rest
    pure (.object object, rest)

/-- `ParseArray`, behind the opening bracket. -/
def parseArray (fuel : Nat) (text : Text) : Except LoadError (JsonValue × Text) :=
  let rest := skipWhitespace text
  if peek rest = ']' then .ok (.array [], rest.tail)
  else do
    let (array, rest) ← parseElements value fuel [] rest
    pure (.array array, rest)

end Loops

def parseValue : Nat → Text → Except LoadError (JsonValue × Text)
  | 0, _ => .error .depth
  | fuel + 1, text =>
      let text := skipWhitespace text
      match matchToken "null".toList text with
      | some rest => .ok (.null, rest)
      | none =>
      match matchToken "true".toList text with
      | some rest => .ok (.bool true, rest)
      | none =>
      match matchToken "false".toList text with
      | some rest => .ok (.bool false, rest)
      | none =>
      let ch := peek text
      if ch = '{' then parseObject (parseValue fuel) fuel text.tail
      else if ch = '[' then parseArray (parseValue fuel) fuel text.tail
      else if ch = '"' then do
        let (string, rest) ← parseString text
        pure (.string string, rest)
      else if ch = '-' ∨ ch.isDigit then do
        let (number, rest) ← parseNumber text
        pure (.number number, rest)
      else .error (.sim "unexpected character in JSON")

/-- `JsonParser::Parse`.  Every level of a document opens with a character of its own, so the
length of the text bounds the recursion. -/
def parse (input : Text) : Except LoadError JsonValue := do
  let (value, rest) ← parseValue (input.length + 1) (skipWhitespace input)
  throwIf (skipWhitespace rest ≠ []) (LoadError.sim "extra data after JSON document")
  pure value

end JsonParser

end Irata2.Sim
