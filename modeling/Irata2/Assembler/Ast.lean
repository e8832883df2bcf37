import Mathlib.Data.BitVec
import Mathlib.Data.List.Basic

/-!
# Tokens and statements

The data types of the assembler's front end.  A string of the source is a list of characters, one
for each of its bytes.
-/

namespace Irata2.Assembler

abbrev Text := List Char

/-- A place in a source file. -/
structure Span where
  file : Text := []
  line : Nat := 1
  column : Nat := 1
  length : Nat := 0
  deriving DecidableEq, Repr

structure AssemblerError where
  span : Span
  message : String
  deriving DecidableEq, Repr

inductive TokenKind
  | identifier
  | number
  | directive
  | string
  | comma
  | leftParen
  | rightParen
  | colon
  | hash
  | newline
  | endOfFile
  deriving DecidableEq, Repr

structure Token where
  kind : TokenKind := .endOfFile
  text : Text := []
  span : Span := {}
  number : Option (BitVec 32) := none
  stringValue : Option Text := none
  deriving DecidableEq, Repr

inductive OperandKind
  | number
  | label
  deriving DecidableEq, Repr

inductive IndexRegister
  | none
  | x
  | y
  deriving DecidableEq, Repr

structure Operand where
  kind : OperandKind := .number
  number : BitVec 32 := 0
  label : Text := []
  immediate : Bool := false
  indirect : Bool := false
  indexRegister : IndexRegister := .none
  span : Span := {}
  deriving DecidableEq, Repr

structure LabelDecl where
  name : Text
  span : Span
  deriving DecidableEq, Repr

structure EquDecl where
  name : Text
  value : BitVec 32
  span : Span
  deriving DecidableEq, Repr

structure InstructionStmt where
  mnemonic : Text := []
  operands : List Operand := []
  span : Span := {}
  deriving DecidableEq, Repr

inductive DirectiveType
  | org
  | byte
  | include
  deriving DecidableEq, Repr

structure DirectiveStmt where
  type : DirectiveType := .org
  operands : List Operand := []
  includePath : Text := []
  span : Span := {}
  deriving DecidableEq, Repr

inductive Statement
  | label (decl : LabelDecl)
  | equ (decl : EquDecl)
  | instruction (stmt : InstructionStmt)
  | directive (stmt : DirectiveStmt)
  deriving DecidableEq, Repr

structure Program where
  statements : List Statement := []
  deriving DecidableEq, Repr

end Irata2.Assembler
