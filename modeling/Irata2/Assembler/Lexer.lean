import Irata2.Assembler.Ast
import Irata2.Library.Checks

/-!
# The lexer

A cursor moves over the characters of a source file and counts lines and columns.
-/

namespace Irata2.Assembler

open Library

def toLower (text : Text) : Text := text.map Char.toLower

def isIdentifierStart (ch : Char) : Bool := ch.isAlpha || ch == '_'

def isIdentifierChar (ch : Char) : Bool := ch.isAlphanum || ch == '_'

/-! ## Numbers -/

/-- The value of a digit, whatever the base. -/
def digitValue (ch : Char) : Option Nat :=
  if '0' ≤ ch ∧ ch ≤ '9' then some (ch.toNat - '0'.toNat)
  else if 'a' ≤ ch ∧ ch ≤ 'f' then some (10 + (ch.toNat - 'a'.toNat))
  else if 'A' ≤ ch ∧ ch ≤ 'F' then some (10 + (ch.toNat - 'A'.toNat))
  else none

/-- The base that a prefix announces, and the digits behind it. -/
def splitBase : Text → Nat × Text
  | '$' :: value => (16, value)
  | '%' :: value => (2, value)
  | '0' :: x :: d :: value =>
      if x = 'x' ∨ x = 'X' then (16, d :: value)
      else if x = 'b' ∨ x = 'B' then (2, d :: value)
      else (10, '0' :: x :: d :: value)
  | value => (10, value)

/-- One digit more; the accumulator wraps around as 32-bit arithmetic does. -/
def parseDigit (span : Span) (base : Nat) (parsed : BitVec 32) (ch : Char) :
    Except AssemblerError (BitVec 32) :=
  match digitValue ch with
  | some digit =>
      if digit ≥ base then .error ⟨span, "invalid numeric literal"⟩
      else .ok (parsed * BitVec.ofNat 32 base + BitVec.ofNat 32 digit)
  | none => .error ⟨span, "invalid numeric literal"⟩

/-- `ParseNumberLiteral` -/
def parseNumberLiteral (text : Text) (span : Span) : Except AssemblerError (BitVec 32) := do
  let value := if text.head? = some '#' then text.tail else text
  let (base, digits) := splitBase value
  throwIf digits.isEmpty (⟨span, "invalid numeric literal"⟩ : AssemblerError)
  digits.foldlM (parseDigit span base) 0

/-! ## The cursor -/

structure Cursor where
  rest : Text
  line : Nat := 1
  column : Nat := 1
  deriving DecidableEq, Repr

namespace Cursor

def atEnd (c : Cursor) : Bool := c.rest.isEmpty

/-- The next character, and the null character at the end of the source. -/
def peek (c : Cursor) : Char := c.rest.headD (Char.ofNat 0)

def peekNext (c : Cursor) : Char := c.rest.tail.headD (Char.ofNat 0)

def advance (c : Cursor) : Cursor :=
  match c.rest with
  | [] => c
  | ch :: rest =>
      if ch = '\n' then ⟨rest, c.line + 1, 1⟩ else ⟨rest, c.line, c.column + 1⟩

/-- Advances over the characters that satisfy `p`. -/
def advanceWhile (p : Char → Bool) : Text → Nat → Nat → Cursor
  | [], line, column => ⟨[], line, column⟩
  | ch :: rest, line, column =>
      if p ch then
        if ch = '\n' then advanceWhile p rest (line + 1) 1
        else advanceWhile p rest line (column + 1)
      else ⟨ch :: rest, line, column⟩

def skipWhile (p : Char → Bool) (c : Cursor) : Cursor := advanceWhile p c.rest c.line c.column

def skipWhitespace (c : Cursor) : Cursor :=
  c.skipWhile fun ch => ch == ' ' || ch == '\t' || ch == '\r'

def skipComment (c : Cursor) : Cursor := c.skipWhile fun ch => ch != '\n'

/-- The characters between a cursor and a later one. -/
def textTo (c c' : Cursor) : Text := c.rest.take (c.rest.length - c'.rest.length)

end Cursor

/-! ## Tokens -/

section Lexer

variable (filename : Text)

def makeToken (c : Cursor) (kind : TokenKind) (length : Nat) : Token :=
  { kind, span := ⟨filename, c.line, c.column, length⟩ }

/-- `LexIdentifierOrDirective` -/
def lexIdentifierOrDirective (start : Cursor) : Except AssemblerError (Token × Cursor) := do
  let isDirective := start.peek == '.'
  let c := if isDirective then start.advance else start
  throwIf (¬isIdentifierStart c.peek = true)
    (⟨⟨filename, c.line, start.column, 1⟩, "expected identifier"⟩ : AssemblerError)
  let c' := c.skipWhile isIdentifierChar
  let text := toLower (c.textTo c')
  let length := (start.textTo c').length
  pure ({ kind := if isDirective then .directive else .identifier, text,
          span := ⟨filename, c'.line, start.column, length⟩ }, c')

/-- The prefix of a number that `LexNumber` skips before the digits. -/
def skipBase (c : Cursor) : Cursor :=
  if c.peek = '$' ∨ c.peek = '%' then c.advance
  else if c.peek = '0' ∧
      (c.peekNext = 'x' ∨ c.peekNext = 'X' ∨ c.peekNext = 'b' ∨ c.peekNext = 'B') then
    c.advance.advance
  else c

/-- `LexNumber` -/
def lexNumber (start : Cursor) : Except AssemblerError (Token × Cursor) := do
  let c := if start.peek = '#' then start.advance else start
  let c' := (skipBase c).skipWhile Char.isAlphanum
  let text := start.textTo c'
  let span : Span := ⟨filename, c'.line, start.column, text.length⟩
  let value ← parseNumberLiteral text span
  pure ({ kind := .number, text, span, number := some value }, c')

/-- The body of a string up to its closing quote; `start` is the cursor at the opening quote. -/
def lexStringBody (start : Cursor) : Text → Nat → Nat → Text →
    Except AssemblerError (Text × Cursor)
  | [], line, _, _ =>
      .error ⟨⟨filename, line, start.column, start.rest.length⟩, "unterminated string literal"⟩
  | '"' :: rest, line, column, value => .ok (value, ⟨rest, line, column + 1⟩)
  | '\n' :: rest, line, _, _ =>
      .error ⟨⟨filename, line, start.column, start.rest.length - (rest.length + 1)⟩,
        "unterminated string literal"⟩
  | ['\\'], line, _, _ =>
      .error ⟨⟨filename, line, start.column, start.rest.length⟩, "unterminated string literal"⟩
  | '\\' :: escaped :: rest, line, column, value =>
      if escaped = '"' ∨ escaped = '\\' then
        lexStringBody start rest line (column + 2) (value ++ [escaped])
      else .error ⟨⟨filename, line, column + 1, 1⟩, "invalid escape sequence"⟩
  | ch :: rest, line, column, value => lexStringBody start rest line (column + 1) (value ++ [ch])

/-- `LexString` -/
def lexString (start : Cursor) : Except AssemblerError (Token × Cursor) := do
  let c := start.advance
  let (value, c') ← lexStringBody filename start c.rest c.line c.column []
  let text := start.textTo c'
  pure ({ kind := .string, text, span := ⟨filename, c'.line, start.column, text.length⟩,
          stringValue := some value }, c')

/-- The token at a cursor that is neither at white space nor at a comment. -/
def lexToken (c : Cursor) : Except AssemblerError (Token × Cursor) :=
  if c.atEnd then .ok (makeToken filename c .endOfFile 0, c)
  else
    let ch := c.peek
    if ch = '\n' then .ok ({ makeToken filename c.advance .newline 1 with text := ['\n'] }, c.advance)
    else if ch = ',' then .ok (makeToken filename c.advance .comma 1, c.advance)
    else if ch = '(' then .ok (makeToken filename c.advance .leftParen 1, c.advance)
    else if ch = ')' then .ok (makeToken filename c.advance .rightParen 1, c.advance)
    else if ch = ':' then .ok (makeToken filename c.advance .colon 1, c.advance)
    else if ch = '"' then lexString filename c
    else if ch = '.' then lexIdentifierOrDirective filename c
    else if isIdentifierStart ch then lexIdentifierOrDirective filename c
    else if ch = '#' then
      if isIdentifierStart c.peekNext then .ok (makeToken filename c.advance .hash 1, c.advance)
      else lexNumber filename c
    else if ch = '$' ∨ ch = '%' ∨ ch.isDigit then lexNumber filename c
    else .error ⟨⟨filename, c.line, c.column, 1⟩, "unexpected character in input"⟩

/-- `NextToken`: a comment is followed by a line break or the end of the source, so there is only
one to skip. -/
def nextToken (c : Cursor) : Except AssemblerError (Token × Cursor) :=
  let c := c.skipWhitespace
  if ¬c.atEnd ∧ c.peek = ';' then lexToken filename c.skipComment.skipWhitespace
  else lexToken filename c

end Lexer

/-! ## Every token moves the cursor -/

namespace Cursor

theorem length_advance (c : Cursor) : c.advance.rest.length = c.rest.length - 1 := by
  rcases c with ⟨rest, line, column⟩
  cases rest with
  | nil => rfl
  | cons ch rest =>
      show (if ch = '\n' then _ else _ : Cursor).rest.length = _
      split <;> rfl

theorem length_advanceWhile (p : Char → Bool) (rest : Text) (line column : Nat) :
    (advanceWhile p rest line column).rest.length ≤ rest.length := by
  induction rest generalizing line column with
  | nil => exact Nat.le_refl _
  | cons ch rest ih =>
      unfold advanceWhile
      split
      · split
        · exact Nat.le_succ_of_le (ih _ _)
        · exact Nat.le_succ_of_le (ih _ _)
      · exact Nat.le_refl _

theorem length_skipWhile (p : Char → Bool) (c : Cursor) :
    (c.skipWhile p).rest.length ≤ c.rest.length :=
  length_advanceWhile p c.rest c.line c.column

/-- Skipping starts with the next character. -/
theorem length_skipWhile_lt {p : Char → Bool} {c : Cursor} (hp : p c.peek = true)
    (hend : c.atEnd = false) : (c.skipWhile p).rest.length < c.rest.length := by
  rcases c with ⟨rest, line, column⟩
  cases rest with
  | nil => cases hend
  | cons ch rest =>
      change p ch = true at hp
      unfold skipWhile advanceWhile
      rw [if_pos hp]
      split
      · exact Nat.lt_succ_of_le (length_advanceWhile _ _ _ _)
      · exact Nat.lt_succ_of_le (length_advanceWhile _ _ _ _)

theorem length_advance_lt {c : Cursor} (hend : c.atEnd = false) :
    c.advance.rest.length < c.rest.length := by
  have hpos : 0 < c.rest.length := by
    rw [List.length_pos_iff]
    intro h
    unfold atEnd at hend
    rw [h] at hend
    cases hend
  rw [length_advance]
  omega

theorem length_advance_le (c : Cursor) : c.advance.rest.length ≤ c.rest.length := by
  rw [length_advance]
  omega

end Cursor

theorem length_skipBase (c : Cursor) : (skipBase c).rest.length ≤ c.rest.length := by
  unfold skipBase
  split
  · exact c.length_advance_le
  · split
    · exact (Cursor.length_advance_le _).trans c.length_advance_le
    · exact Nat.le_refl _

theorem isIdentifierChar_of_start {ch : Char} (h : isIdentifierStart ch = true) :
    isIdentifierChar ch = true := by
  unfold isIdentifierStart at h
  unfold isIdentifierChar Char.isAlphanum
  simp only [Bool.or_eq_true] at h ⊢
  rcases h with h | h
  · exact .inl (.inl h)
  · exact .inr h

theorem lexIdentifierOrDirective_lt {filename : Text} {c c' : Cursor} {token : Token}
    (hend : c.atEnd = false) (h : lexIdentifierOrDirective filename c = .ok (token, c')) :
    c'.rest.length < c.rest.length := by
  unfold lexIdentifierOrDirective at h
  rcases seq_eq_ok.mp h with ⟨hstart, h⟩
  cases h
  have hidentifier := Decidable.not_not.mp (throwIf_eq_ok.mp hstart)
  split
  · exact (Cursor.length_skipWhile _ _).trans_lt (Cursor.length_advance_lt hend)
  · rename_i hdirective
    rw [if_neg hdirective] at hidentifier
    exact Cursor.length_skipWhile_lt (isIdentifierChar_of_start hidentifier) hend

theorem lexNumber_lt {filename : Text} {c c' : Cursor} {token : Token} (hend : c.atEnd = false)
    (hch : c.peek = '#' ∨ c.peek = '$' ∨ c.peek = '%' ∨ c.peek.isDigit = true)
    (h : lexNumber filename c = .ok (token, c')) : c'.rest.length < c.rest.length := by
  unfold lexNumber at h
  rcases bind_eq_ok.mp h with ⟨value, -, h⟩
  cases h
  by_cases hhash : c.peek = '#'
  · rw [if_pos hhash]
    exact ((Cursor.length_skipWhile _ _).trans (length_skipBase _)).trans_lt
      (Cursor.length_advance_lt hend)
  · rw [if_neg hhash]
    unfold skipBase
    split
    · exact (Cursor.length_skipWhile _ _).trans_lt (Cursor.length_advance_lt hend)
    · rename_i hbase
      split
      · exact ((Cursor.length_skipWhile _ _).trans (Cursor.length_advance_le _)).trans_lt
          (Cursor.length_advance_lt hend)
      · have hdigit : c.peek.isDigit = true := by
          rcases hch with h | h | h | h
          · exact absurd h hhash
          · exact absurd (.inl h) hbase
          · exact absurd (.inr h) hbase
          · exact h
        apply Cursor.length_skipWhile_lt _ hend
        unfold Char.isAlphanum
        rw [hdigit, Bool.or_true]

theorem lexStringBody_le {filename : Text} {start c' : Cursor} {rest : Text} {line column : Nat}
    {value result : Text}
    (h : lexStringBody filename start rest line column value = .ok (result, c')) :
    c'.rest.length ≤ rest.length := by
  induction rest, line, column, value using lexStringBody.induct with
  | case1 => cases h
  | case2 =>
      cases h
      exact Nat.le_succ _
  | case3 => cases h
  | case4 => cases h
  | case5 _ _ _ _ _ hescaped ih =>
      rw [lexStringBody, if_pos hescaped] at h
      exact (ih h).trans ((Nat.le_succ _).trans (Nat.le_succ _))
  | case6 _ _ _ _ _ hescaped =>
      rw [lexStringBody, if_neg hescaped] at h
      cases h
  | case7 _ _ _ _ _ h1 h2 h3 h4 ih =>
      rw [lexStringBody] at h
      · exact Nat.le_succ_of_le (ih h)
      all_goals assumption

theorem lexString_lt {filename : Text} {c c' : Cursor} {token : Token} (hend : c.atEnd = false)
    (h : lexString filename c = .ok (token, c')) : c'.rest.length < c.rest.length := by
  unfold lexString at h
  rcases bind_eq_ok.mp h with ⟨⟨value, c''⟩, hbody, h⟩
  cases h
  exact (lexStringBody_le hbody).trans_lt (Cursor.length_advance_lt hend)

theorem lexToken_lt {filename : Text} {c c' : Cursor} {token : Token}
    (h : lexToken filename c = .ok (token, c')) (hkind : token.kind ≠ .endOfFile) :
    c'.rest.length < c.rest.length := by
  unfold lexToken at h
  cases hend : c.atEnd with
  | true =>
      rw [if_pos hend] at h
      cases h
      exact absurd rfl hkind
  | false =>
      rw [if_neg (by rw [hend]; decide)] at h
      have hadvance := Cursor.length_advance_lt hend
      simp only at h
      split at h
      · cases h
        exact hadvance
      split at h
      · cases h
        exact hadvance
      split at h
      · cases h
        exact hadvance
      split at h
      · cases h
        exact hadvance
      split at h
      · cases h
        exact hadvance
      split at h
      · exact lexString_lt hend h
      split at h
      · exact lexIdentifierOrDirective_lt hend h
      split at h
      · exact lexIdentifierOrDirective_lt hend h
      split at h
      · rename_i hhash
        split at h
        · cases h
          exact hadvance
        · exact lexNumber_lt hend (.inl hhash) h
      split at h
      · rename_i hnumber
        exact lexNumber_lt hend (.inr hnumber) h
      · cases h

theorem nextToken_lt {filename : Text} {c c' : Cursor} {token : Token}
    (h : nextToken filename c = .ok (token, c')) (hkind : token.kind ≠ .endOfFile) :
    c'.rest.length < c.rest.length := by
  have hspace := Cursor.length_skipWhile (fun ch => ch == ' ' || ch == '\t' || ch == '\r')
  unfold nextToken at h
  simp only at h
  split at h
  · have hcomment := Cursor.length_skipWhile (fun ch => ch != '\n') c.skipWhitespace
    exact (lexToken_lt h hkind).trans_le ((hspace _).trans (hcomment.trans (hspace c)))
  · exact (lexToken_lt h hkind).trans_le (hspace c)

/-- The tokens from a cursor on, the last one being the end of the source. -/
def lexFrom (filename : Text) (c : Cursor) : Except AssemblerError (List Token) :=
  match h : nextToken filename c with
  | .error e => .error e
  | .ok (token, c') =>
      if hkind : token.kind = .endOfFile then .ok [token]
      else (lexFrom filename c').map (token :: ·)
termination_by c.rest.length
decreasing_by exact nextToken_lt h hkind

/-- `Lexer::Lex` -/
def lex (source filename : Text) : Except AssemblerError (List Token) :=
  lexFrom filename { rest := source }

end Irata2.Assembler
