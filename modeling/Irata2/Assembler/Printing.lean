import Irata2.Assembler.Literals
import Irata2.Assembler.Names
import Mathlib.Data.List.Chain

/-!
# Printed sources

A source put together from pieces, which are tokens, blanks and comments, and the tokens that the
lexer reads in it.
-/

namespace Irata2.Assembler

open Library

/-! ## Pieces -/

/-- A character that is a token by itself. -/
inductive Mark
  | comma
  | leftParen
  | rightParen
  | colon
  | newline
  deriving DecidableEq, Repr

namespace Mark

def char : Mark → Char
  | .comma => ','
  | .leftParen => '('
  | .rightParen => ')'
  | .colon => ':'
  | .newline => '\n'

def kind : Mark → TokenKind
  | .comma => .comma
  | .leftParen => .leftParen
  | .rightParen => .rightParen
  | .colon => .colon
  | .newline => .newline

theorem kind_ne (m : Mark) : m.kind ≠ .endOfFile := by
  cases m <;> decide

/-- Only the token of a line break has a text. -/
def text : Mark → Text
  | .newline => ['\n']
  | .comma | .leftParen | .rightParen | .colon => []

end Mark

/-- A piece of a source; a number is hexadecimal, behind a dollar sign. -/
inductive Piece
  | blank
  | mark (m : Mark)
  | word (name : Text)
  | directive (name : Text)
  | number (marked : Bool) (digits : Text)
  | comment (text : Text)
  deriving DecidableEq, Repr

structure IsName (name : Text) : Prop where
  start : isIdentifierStart (name.headD ' ') = true
  chars : ∀ ch ∈ name, isIdentifierChar ch = true

theorem IsName.of_all {name : Text} (hstart : isIdentifierStart (name.headD ' ') = true)
    (hchars : name.all isIdentifierChar = true) : IsName name :=
  ⟨hstart, List.all_eq_true.mp hchars⟩

namespace Piece

def text : Piece → Text
  | .blank => [' ']
  | .mark m => [m.char]
  | .word name => name
  | .directive name => '.' :: name
  | .number marked digits => (if marked then ['#'] else []) ++ '$' :: digits
  | .comment text => ';' :: text

inductive Valid : Piece → Prop
  | blank : Valid .blank
  | mark (m : Mark) : Valid (.mark m)
  | word {name : Text} (h : IsName name) : Valid (.word name)
  | directive {name : Text} (h : IsName name) : Valid (.directive name)
  | number (marked : Bool) {digits : Text} (h : AreDigits 16 digits) : Valid (.number marked digits)
  | comment {text : Text} (h : '\n' ∉ text) : Valid (.comment text)

/-- A piece ends where another one starts. -/
def Joins : Piece → Piece → Prop
  | .word _, q | .directive _, q | .number _ _, q => ∀ name, q ≠ .word name
  | .comment _, q => q = .mark .newline
  | .blank, _ | .mark _, _ => True

end Piece

/-- The tokens of the pieces, wherever they stand in a file. -/
inductive Reads : List Piece → List Token → Prop
  | done (span : Span) : Reads [] [{ kind := .endOfFile, span }]
  | blank {ps : List Piece} {ts : List Token} (h : Reads ps ts) : Reads (.blank :: ps) ts
  | comment (text : Text) {ps : List Piece} {ts : List Token} (h : Reads ps ts) :
      Reads (.comment text :: ps) ts
  | mark (m : Mark) (span : Span) {ps : List Piece} {ts : List Token} (h : Reads ps ts) :
      Reads (.mark m :: ps) ({ kind := m.kind, text := m.text, span } :: ts)
  | word (name : Text) (span : Span) {ps : List Piece} {ts : List Token} (h : Reads ps ts) :
      Reads (.word name :: ps) ({ kind := .identifier, text := toLower name, span } :: ts)
  | directive (name : Text) (span : Span) {ps : List Piece} {ts : List Token} (h : Reads ps ts) :
      Reads (.directive name :: ps) ({ kind := .directive, text := toLower name, span } :: ts)
  | number (marked : Bool) (digits : Text) (span : Span) {ps : List Piece} {ts : List Token}
      (h : Reads ps ts) :
      Reads (.number marked digits :: ps)
        ({ kind := .number, text := (Piece.number marked digits).text, span,
           number := some (BitVec.ofNat 32 (Digits.value 16 digits)) } :: ts)

/-! ## Runs of characters -/

/-- What comes next does not belong to a run of characters. -/
def Stops (p : Char → Bool) (tail : Text) : Prop := ∀ ch, tail.head? = some ch → p ch = false

theorem Cursor.advanceWhile_append {p : Char → Bool} {word tail : Text} (hline : p '\n' = false)
    (hword : ∀ ch ∈ word, p ch = true) (htail : Stops p tail) (line column : Nat) :
    advanceWhile p (word ++ tail) line column = ⟨tail, line, column + word.length⟩ := by
  induction word generalizing column with
  | nil =>
      cases tail with
      | nil => rfl
      | cons ch tail =>
          show (if p ch then _ else _) = _
          rw [htail ch rfl]
          rfl
  | cons ch word ih =>
      have hch := hword ch List.mem_cons_self
      have hne : ch ≠ '\n' := by
        rintro rfl
        rw [hline] at hch
        cases hch
      show (if p ch then if ch = '\n' then _ else advanceWhile p (word ++ tail) line (column + 1)
        else _) = _
      rw [if_pos hch, if_neg hne, ih (fun c hc => hword c (List.mem_cons_of_mem _ hc)),
        List.length_cons]
      congr 1
      omega

theorem Cursor.textTo_append (word tail : Text) (line column line' column' : Nat) :
    textTo ⟨word ++ tail, line, column⟩ ⟨tail, line', column'⟩ = word := by
  unfold textTo
  simp

theorem Stops.mono {p q : Char → Bool} {tail : Text} (h : Stops q tail)
    (hpq : ∀ ch, p ch = true → q ch = true) : Stops p tail := by
  intro ch hch
  have hq := h ch hch
  cases hp : p ch with
  | false => rfl
  | true =>
      rw [hpq ch hp] at hq
      cases hq

theorem isIdentifierChar_of_alphanum {ch : Char} (h : ch.isAlphanum = true) :
    isIdentifierChar ch = true := by
  unfold isIdentifierChar
  rw [h, Bool.true_or]

theorem isAlphanum_of_digit {ch : Char} {d : Nat} (h : Digits.digit ch = some d) :
    ch.isAlphanum = true := by
  unfold Digits.digit at h
  unfold Char.isAlphanum Char.isAlpha Char.isUpper Char.isLower Char.isDigit
  simp only [Bool.or_eq_true, Bool.and_eq_true, decide_eq_true_eq]
  split at h
  · rename_i hd
    exact .inr hd
  split at h
  · rename_i hd
    exact .inl (.inr ⟨hd.1, Char.le_trans hd.2 (by decide)⟩)
  split at h
  · rename_i hd
    exact .inl (.inl ⟨hd.1, Char.le_trans hd.2 (by decide)⟩)
  · cases h

/-! ## One piece -/

section Lexer

variable (filename : Text)

theorem lexFrom_eq (c : Cursor) : lexFrom filename c =
    nextToken filename c >>= fun next =>
      if next.1.kind = .endOfFile then .ok [next.1]
      else (lexFrom filename next.2).map (next.1 :: ·) := by
  conv_lhs => rw [lexFrom]
  split
  · rename_i h
    rw [h]
    rfl
  · rename_i h
    rw [h]
    rfl

variable {filename} {c c' : Cursor} {token : Token} {tokens : List Token}

theorem lexFrom_cons (hnext : nextToken filename c = .ok (token, c'))
    (hkind : token.kind ≠ .endOfFile) (hrest : lexFrom filename c' = .ok tokens) :
    lexFrom filename c = .ok (token :: tokens) := by
  rw [lexFrom_eq, hnext]
  show (if token.kind = .endOfFile then _ else (lexFrom filename c').map (token :: ·)) = _
  rw [if_neg hkind, hrest]
  rfl

theorem lexFrom_skip (h : nextToken filename c = nextToken filename c') :
    lexFrom filename c = lexFrom filename c' := by
  rw [lexFrom_eq, h, ← lexFrom_eq]

/-- A token that starts with a character which is neither white space nor that of a comment. -/
theorem nextToken_of_peek {ch : Char} {tail : Text} {line column : Nat}
    (hblank : (ch == ' ' || ch == '\t' || ch == '\r') = false) (hcomment : ch ≠ ';') :
    nextToken filename ⟨ch :: tail, line, column⟩ =
      lexToken filename ⟨ch :: tail, line, column⟩ := by
  have hskip : Cursor.skipWhitespace ⟨ch :: tail, line, column⟩ = ⟨ch :: tail, line, column⟩ := by
    show (if (ch == ' ' || ch == '\t' || ch == '\r') = true then _ else _ : Cursor) = _
    rw [hblank]
    rfl
  unfold nextToken
  simp only [hskip]
  exact if_neg fun h => hcomment h.2

theorem nextToken_mark (m : Mark) (tail : Text) (line column : Nat) :
    ∃ span line' column', nextToken filename ⟨m.char :: tail, line, column⟩ =
      .ok ({ kind := m.kind, text := m.text, span }, ⟨tail, line', column'⟩) := by
  cases m with
  | comma | leftParen | rightParen | colon => exact ⟨_, line, column + 1, rfl⟩
  | newline => exact ⟨_, line + 1, 1, rfl⟩

theorem nextToken_blank (tail : Text) (line column : Nat) :
    nextToken filename ⟨' ' :: tail, line, column⟩ = nextToken filename ⟨tail, line, column + 1⟩ :=
  rfl

theorem ne_of_isIdentifierStart {ch c : Char} (h : isIdentifierStart ch = true)
    (hc : isIdentifierStart c = false) : ch ≠ c := by
  rintro rfl
  rw [h] at hc
  cases hc

theorem nextToken_word {name tail : Text} (hname : IsName name)
    (htail : Stops isIdentifierChar tail) (line column : Nat) :
    ∃ span column', nextToken filename ⟨name ++ tail, line, column⟩ =
      .ok ({ kind := .identifier, text := toLower name, span }, ⟨tail, line, column'⟩) := by
  have hskip := Cursor.advanceWhile_append (by decide) hname.chars htail line column
  have htext := Cursor.textTo_append name tail line column line (column + name.length)
  cases name with
  | nil => cases hname.start
  | cons ch rest =>
      have hstart : isIdentifierStart ch = true := hname.start
      have hne : ∀ c, isIdentifierStart c = false → ch ≠ c := fun c =>
        ne_of_isIdentifierStart hstart
      have hblank : (ch == ' ' || ch == '\t' || ch == '\r') = false := by
        simp only [Bool.or_eq_false_iff, beq_eq_false_iff_ne]
        exact ⟨⟨hne ' ' (by decide), hne '\t' (by decide)⟩, hne '\r' (by decide)⟩
      have hpeek : Cursor.peek ⟨ch :: rest ++ tail, line, column⟩ = ch := rfl
      have hdot : (ch == '.') = false := beq_eq_false_iff_ne.mpr (hne '.' (by decide))
      rw [List.cons_append, nextToken_of_peek hblank (hne ';' (by decide)), ← List.cons_append]
      unfold lexToken
      simp only [hpeek]
      have hend : ¬Cursor.atEnd ⟨ch :: rest ++ tail, line, column⟩ = true := Bool.false_ne_true
      rw [if_neg hend, if_neg (hne '\n' (by decide)), if_neg (hne ',' (by decide)),
        if_neg (hne '(' (by decide)), if_neg (hne ')' (by decide)), if_neg (hne ':' (by decide)),
        if_neg (hne '"' (by decide)), if_neg (hne '.' (by decide)), if_pos hstart]
      unfold lexIdentifierOrDirective Cursor.skipWhile
      simp only [hpeek, hdot, Bool.false_eq_true, if_false, hskip, htext, hstart, not_true_eq_false]
      exact ⟨_, _, rfl⟩

theorem nextToken_directive {name tail : Text} (hname : IsName name)
    (htail : Stops isIdentifierChar tail) (line column : Nat) :
    ∃ span column', nextToken filename ⟨'.' :: name ++ tail, line, column⟩ =
      .ok ({ kind := .directive, text := toLower name, span }, ⟨tail, line, column'⟩) := by
  have hskip := Cursor.advanceWhile_append (by decide) hname.chars htail line (column + 1)
  have htext := Cursor.textTo_append name tail line (column + 1) line (column + 1 + name.length)
  have hadvance : Cursor.advance ⟨'.' :: name ++ tail, line, column⟩ =
      ⟨name ++ tail, line, column + 1⟩ := rfl
  have hpeek : isIdentifierStart (Cursor.peek ⟨name ++ tail, line, column + 1⟩) = true := by
    cases name with
    | nil => cases hname.start
    | cons ch rest => exact hname.start
  have htoken : nextToken filename ⟨'.' :: name ++ tail, line, column⟩ =
      lexIdentifierOrDirective filename ⟨'.' :: name ++ tail, line, column⟩ := rfl
  have hdot : (Cursor.peek ⟨'.' :: name ++ tail, line, column⟩ == '.') = true := rfl
  rw [htoken]
  unfold lexIdentifierOrDirective Cursor.skipWhile
  simp only [hdot, if_true, hadvance, hskip, htext, hpeek, not_true_eq_false]
  exact ⟨_, _, rfl⟩

theorem nextToken_hexNumber (marked : Bool) {digits tail : Text} (hdigits : AreDigits 16 digits)
    (htail : Stops isIdentifierChar tail) (line column : Nat) :
    ∃ span column',
      nextToken filename ⟨(Piece.number marked digits).text ++ tail, line, column⟩ =
        .ok ({ kind := .number, text := (Piece.number marked digits).text, span,
               number := some (BitVec.ofNat 32 (Digits.value 16 digits)) },
          ⟨tail, line, column'⟩) := by
  have hall : ∀ ch ∈ digits, ch.isAlphanum = true := by
    intro ch hch
    obtain ⟨d, -, hd⟩ := hdigits.valid ch hch
    exact isAlphanum_of_digit hd
  have hstops : Stops Char.isAlphanum tail := htail.mono fun ch => isIdentifierChar_of_alphanum
  have hskip := fun column => Cursor.advanceWhile_append (by decide) hall hstops line column
  have htext := Cursor.textTo_append (Piece.number marked digits).text tail line column line
  have hvalue : ∀ span, parseNumberLiteral (Piece.number marked digits).text span =
      .ok (BitVec.ofNat 32 (Digits.value 16 digits)) := by
    intro span
    refine parseNumberLiteral_eq_ok.mpr ⟨_, ?_, rfl⟩
    cases marked with
    | false => exact .plain (.dollar digits) hdigits
    | true => exact .marked (.dollar digits) hdigits
  have htoken : nextToken filename ⟨(Piece.number marked digits).text ++ tail, line, column⟩ =
      lexNumber filename ⟨(Piece.number marked digits).text ++ tail, line, column⟩ := by
    cases marked with
    | false => rfl
    | true => rfl
  have hend : ∃ column', (skipBase (if Cursor.peek
        ⟨(Piece.number marked digits).text ++ tail, line, column⟩ = '#' then
      Cursor.advance ⟨(Piece.number marked digits).text ++ tail, line, column⟩
      else ⟨(Piece.number marked digits).text ++ tail, line, column⟩)).skipWhile Char.isAlphanum =
      ⟨tail, line, column'⟩ := by
    cases marked with
    | false => exact ⟨_, hskip (column + 1)⟩
    | true => exact ⟨_, hskip (column + 2)⟩
  obtain ⟨column', hend⟩ := hend
  rw [htoken]
  unfold lexNumber
  simp only [hend, htext, hvalue]
  exact ⟨_, _, rfl⟩

theorem nextToken_comment {text tail : Text} (htext : '\n' ∉ text)
    (htail : ∀ ch, tail.head? = some ch → ch = '\n') (line column : Nat) :
    ∃ column', nextToken filename ⟨';' :: text ++ tail, line, column⟩ =
      nextToken filename ⟨tail, line, column'⟩ := by
  have hchars : ∀ ch ∈ ';' :: text, (ch != '\n') = true := by
    intro ch hch
    obtain rfl | hch := List.mem_cons.mp hch
    · decide
    · exact bne_iff_ne.mpr fun h => htext (h ▸ hch)
  have hstops : Stops (fun ch => ch != '\n') tail := by
    intro ch hch
    rw [htail ch hch]
    decide
  have hskip := Cursor.advanceWhile_append (by decide) hchars hstops line column
  refine ⟨column + (';' :: text).length, ?_⟩
  have htoken : nextToken filename ⟨';' :: text ++ tail, line, column⟩ =
      lexToken filename (Cursor.skipComment ⟨';' :: text ++ tail, line, column⟩).skipWhitespace :=
    rfl
  have hcomment : Cursor.skipComment ⟨';' :: text ++ tail, line, column⟩ =
      ⟨tail, line, column + (';' :: text).length⟩ := hskip
  rw [htoken, hcomment]
  cases tail with
  | nil => rfl
  | cons ch tail =>
      rw [htail ch rfl]
      rfl

end Lexer

/-! ## A whole source -/

namespace Piece

/-- Behind a run of identifier characters, no other one starts. -/
theorem stops_of_joins {ps : List Piece} (h : ∀ q ∈ ps.head?, ∀ name, q ≠ .word name) :
    Stops isIdentifierChar (ps.flatMap text) := by
  intro ch hch
  cases ps with
  | nil => cases hch
  | cons q ps =>
      cases q with
      | word name => exact absurd rfl (h _ rfl name)
      | mark m =>
          cases m <;> cases hch <;> decide
      | number marked digits =>
          cases marked <;> cases hch <;> decide
      | blank | directive | comment =>
          cases hch
          decide

end Piece

/-- The lexer reads the tokens of the pieces back. -/
theorem lexFrom_pieces (filename : Text) {ps : List Piece} (hvalid : ∀ p ∈ ps, p.Valid)
    (hjoins : ps.IsChain Piece.Joins) (line column : Nat) :
    ∃ tokens, lexFrom filename ⟨ps.flatMap Piece.text, line, column⟩ = .ok tokens ∧
      Reads ps tokens := by
  induction ps generalizing line column with
  | nil =>
      refine ⟨_, ?_, .done ⟨filename, line, column, 0⟩⟩
      rw [lexFrom_eq]
      rfl
  | cons p ps ih =>
      have hps := ih (fun q hq => hvalid q (List.mem_cons_of_mem _ hq)) hjoins.tail
      -- where a piece ends is known from the piece behind it
      have hnext : ∀ q ∈ ps.head?, p.Joins q := (List.isChain_cons.mp hjoins).1
      rw [List.flatMap_cons]
      cases hvalid p List.mem_cons_self with
      | blank =>
          obtain ⟨tokens, hlex, hreads⟩ := hps line (column + 1)
          exact ⟨tokens, (lexFrom_skip (nextToken_blank _ line column)).trans hlex, hreads.blank⟩
      | @comment text htext =>
          -- a comment goes on to the end of its line
          have hbreak : ∀ ch, (ps.flatMap Piece.text).head? = some ch → ch = '\n' := by
            intro ch hch
            cases ps with
            | nil => cases hch
            | cons q ps =>
                have hq : q = .mark .newline := hnext q rfl
                subst hq
                cases hch
                rfl
          obtain ⟨column', hskip⟩ := nextToken_comment htext hbreak line column
          obtain ⟨tokens, hlex, hreads⟩ := hps line column'
          exact ⟨tokens, (lexFrom_skip hskip).trans hlex, hreads.comment text⟩
      | mark m =>
          obtain ⟨span, line', column', htoken⟩ :=
            nextToken_mark m (ps.flatMap Piece.text) line column
          obtain ⟨tokens, hlex, hreads⟩ := hps line' column'
          exact ⟨_, lexFrom_cons htoken m.kind_ne hlex, hreads.mark m span⟩
      | @word name hname =>
          obtain ⟨span, column', htoken⟩ :=
            nextToken_word hname (Piece.stops_of_joins hnext) line column
          obtain ⟨tokens, hlex, hreads⟩ := hps line column'
          exact ⟨_, lexFrom_cons htoken (show TokenKind.identifier ≠ _ by decide) hlex,
            hreads.word name span⟩
      | @directive name hname =>
          obtain ⟨span, column', htoken⟩ :=
            nextToken_directive hname (Piece.stops_of_joins hnext) line column
          obtain ⟨tokens, hlex, hreads⟩ := hps line column'
          exact ⟨_, lexFrom_cons htoken (show TokenKind.directive ≠ _ by decide) hlex,
            hreads.directive name span⟩
      | @number marked digits hdigits =>
          obtain ⟨span, column', htoken⟩ :=
            nextToken_hexNumber marked hdigits (Piece.stops_of_joins hnext) line column
          obtain ⟨tokens, hlex, hreads⟩ := hps line column'
          exact ⟨_, lexFrom_cons htoken (show TokenKind.number ≠ _ by decide) hlex,
            hreads.number marked digits span⟩

/-! ## Operands -/

/-- The operand that a single piece is. -/
inductive Denotes : Piece → Operand → Prop
  | number (marked : Bool) (digits : Text) :
      Denotes (.number marked digits)
        { number := BitVec.ofNat 32 (Digits.value 16 digits), immediate := marked }
  | word (name : Text) : Denotes (.word name) { kind := .label, label := toLower name }

/-- The ways in which an operand is printed. -/
inductive OperandPieces : List Piece → Operand → Prop
  | plain {p : Piece} {operand : Operand} (h : Denotes p operand) : OperandPieces [p] operand
  | indexedX {p : Piece} {operand : Operand} (h : Denotes p operand) :
      OperandPieces [p, .mark .comma, .word ['X']] { operand with indexRegister := .x }
  | indexedY {p : Piece} {operand : Operand} (h : Denotes p operand) :
      OperandPieces [p, .mark .comma, .word ['Y']] { operand with indexRegister := .y }
  | indirect {p : Piece} {operand : Operand} (h : Denotes p operand)
      (himmediate : operand.immediate = false) :
      OperandPieces [.mark .leftParen, p, .mark .rightParen] { operand with indirect := true }
  | indirectX {p : Piece} {operand : Operand} (h : Denotes p operand)
      (himmediate : operand.immediate = false) :
      OperandPieces [.mark .leftParen, p, .mark .comma, .word ['X'], .mark .rightParen]
        { operand with indirect := true, indexRegister := .x }
  | indirectY {p : Piece} {operand : Operand} (h : Denotes p operand)
      (himmediate : operand.immediate = false) :
      OperandPieces [.mark .leftParen, p, .mark .rightParen, .mark .comma, .word ['Y']]
        { operand with indirect := true, indexRegister := .y }

theorem OperandPieces.isEmpty {ps : List Piece} {operand : Operand} (h : OperandPieces ps operand) :
    ps.isEmpty = false := by
  cases h <;> rfl

/-- A piece that is an operand ends where no word starts. -/
theorem Denotes.joins {p : Piece} {operand : Operand} (h : Denotes p operand) {q : Piece}
    (hq : ∀ name, q ≠ .word name) : p.Joins q := by
  cases h with
  | number | word => exact hq

theorem OperandPieces.isChain {ps rest : List Piece} {operand : Operand}
    (h : OperandPieces ps operand) (hopens : ∀ q ∈ rest.head?, ∀ name, q ≠ .word name)
    (hrest : rest.IsChain Piece.Joins) : (ps ++ rest).IsChain Piece.Joins := by
  have hmark : ∀ m name, Piece.mark m ≠ .word name := fun _ _ h => (by cases h)
  have hlast : ∀ name, (Piece.word name :: rest).IsChain Piece.Joins := fun _ =>
    List.isChain_cons.mpr ⟨hopens, hrest⟩
  have hclose : ∀ m, (Piece.mark m :: rest).IsChain Piece.Joins := fun _ =>
    List.isChain_cons.mpr ⟨fun _ _ => trivial, hrest⟩
  cases h with
  | plain h => exact List.isChain_cons.mpr ⟨fun q hq => h.joins (hopens q hq), hrest⟩
  | indexedX h | indexedY h =>
      exact .cons_cons (h.joins (hmark _)) (.cons_cons trivial (hlast _))
  | indirect h => exact .cons_cons trivial (.cons_cons (h.joins (hmark _)) (hclose _))
  | indirectX h =>
      exact .cons_cons trivial (.cons_cons (h.joins (hmark _)) (.cons_cons trivial
        (.cons_cons (hmark _) (hclose _))))
  | indirectY h =>
      exact .cons_cons trivial (.cons_cons (h.joins (hmark _)) (.cons_cons trivial
        (.cons_cons trivial (hlast _))))

section Parser

variable {p : Piece} {ps qs : List Piece} {operand : Operand} {tokens : List Token}

/-- The parser reads a single piece as the operand that it is. -/
theorem parseOperand_denotes (h : Denotes p operand) (hreads : Reads (p :: qs) tokens) :
    ∃ token rest span, tokens = token :: rest ∧ Reads qs rest ∧
      (token.kind = .number ∨ token.kind = .identifier) ∧
      parseOperand (token :: rest) = .ok ({ operand with span }, rest) := by
  cases h with
  | number marked digits =>
      cases hreads with
      | number marked digits span h =>
          cases marked with
          | false => exact ⟨_, _, span, rfl, h, .inl rfl, rfl⟩
          | true => exact ⟨_, _, span, rfl, h, .inl rfl, rfl⟩
  | word name =>
      cases hreads with
      | word name span h => exact ⟨_, _, span, rfl, h, .inr rfl, rfl⟩

/-- The tokens that cannot start an operand. -/
def endKinds : List TokenKind := [.colon, .newline, .endOfFile]

/-- An operand without an index register behind it. -/
theorem parseOperands_single {token : Token} {rest ts : List Token} {operand : Operand}
    (h : parseOperand (token :: rest) = .ok (operand, ts)) (hcomma : check ts .comma = false) :
    parseOperands true (token :: rest) = .ok ([operand], ts) := by
  rw [parseOperands_eq, h]
  show (if check ts .comma = true then _ else _) = _
  rw [hcomma]
  rfl

/-- An operand in parentheses. -/
theorem parseOperand_paren (token : Token) {rest ts us : List Token} {operand indexed : Operand}
    (hkind : token.kind = .leftParen) (h : parseOperand rest = .ok (operand, ts))
    (himmediate : operand.immediate = false)
    (hclose : (parseInnerIndex { operand with indirect := true } ts >>= fun (indexed, tokens) =>
      consume .rightParen "expected ')' after indirect operand" tokens >>= fun (_, tokens) =>
        pure (indexed, tokens)) = .ok (indexed, us)) :
    parseOperand (token :: rest) = .ok (indexed, us) := by
  unfold parseOperand
  simp only [hkind, h]
  refine bind_eq_ok.mpr ⟨_, rfl, seq_eq_ok.mpr ⟨throwIf_eq_ok.mpr ?_, hclose⟩⟩
  rw [himmediate]
  exact Bool.false_ne_true

/-- The parser reads a printed operand back. -/
theorem parseOperands_pieces (h : OperandPieces ps operand) (hreads : Reads (ps ++ qs) tokens)
    (hcomma : ∀ ts, Reads qs ts → check ts .comma = false) :
    ∃ token rest ts span, tokens = token :: rest ∧ token.kind ∉ endKinds ∧ Reads qs ts ∧
      parseOperands true (token :: rest) = .ok ([{ operand with span }], ts) := by
  -- the first token of an operand does not end the line, whatever form it has
  have hatom : ∀ {token : Token}, token.kind = .number ∨ token.kind = .identifier →
      token.kind ∉ endKinds := by
    intro token hkind
    obtain hkind | hkind := hkind
    · rw [hkind]
      decide
    · rw [hkind]
      decide
  have hparen : TokenKind.leftParen ∉ endKinds := by decide
  cases h with
  | plain h =>
      obtain ⟨token, rest, span, rfl, hqs, hkind, hparse⟩ := parseOperand_denotes h hreads
      exact ⟨_, _, _, span, rfl, hatom hkind, hqs, parseOperands_single hparse (hcomma _ hqs)⟩
  | indexedX h =>
      obtain ⟨token, rest, span, rfl, hrest, hkind, hparse⟩ := parseOperand_denotes h hreads
      cases hrest with
      | mark m span₁ hrest =>
          cases hrest with
          | word name span₂ hqs =>
              refine ⟨_, _, _, span, rfl, hatom hkind, hqs, ?_⟩
              rw [parseOperands_eq, hparse]
              rfl
  | indexedY h =>
      obtain ⟨token, rest, span, rfl, hrest, hkind, hparse⟩ := parseOperand_denotes h hreads
      cases hrest with
      | mark m span₁ hrest =>
          cases hrest with
          | word name span₂ hqs =>
              refine ⟨_, _, _, span, rfl, hatom hkind, hqs, ?_⟩
              rw [parseOperands_eq, hparse]
              rfl
  | indirect h himmediate =>
      cases hreads with
      | mark m span₁ hreads =>
          obtain ⟨token, rest, span, rfl, hrest, -, hparse⟩ := parseOperand_denotes h hreads
          cases hrest with
          | mark m' span₂ hqs =>
              refine ⟨_, _, _, span, rfl, hparen, hqs, ?_⟩
              exact parseOperands_single (parseOperand_paren _ rfl hparse himmediate rfl)
                (hcomma _ hqs)
  | indirectX h himmediate =>
      cases hreads with
      | mark m span₁ hreads =>
          obtain ⟨token, rest, span, rfl, hrest, -, hparse⟩ := parseOperand_denotes h hreads
          cases hrest with
          | mark m' span₂ hrest =>
              cases hrest with
              | word name span₃ hrest =>
                  cases hrest with
                  | mark m'' span₄ hqs =>
                      refine ⟨_, _, _, span, rfl, hparen, hqs, ?_⟩
                      exact parseOperands_single (parseOperand_paren _ rfl hparse himmediate rfl)
                        (hcomma _ hqs)
  | @indirectY p operand h himmediate =>
      cases hreads with
      | mark m span₁ hreads =>
          obtain ⟨token, rest, span, rfl, hrest, -, hparse⟩ := parseOperand_denotes h hreads
          cases hrest with
          | mark m' span₂ hrest =>
              cases hrest with
              | mark m'' span₃ hrest =>
                  cases hrest with
                  | @word name span₄ _ ts hqs =>
                      refine ⟨_, _, ts, span, rfl, hparen, hqs, ?_⟩
                      -- the index stands behind the parenthesis here, so it is the caller that
                      -- reads it
                      have hoperand := parseOperand_paren { kind := .leftParen, span := span₁ } rfl
                        hparse himmediate rfl
                      rw [parseOperands_eq]
                      exact bind_eq_ok.mpr ⟨_, hoperand, rfl⟩

end Parser

/-! ## Lines -/

/-- The parser reads the pieces of a line as statements, whatever follows. -/
def ReadsAs (line : List Piece) (statements : List Statement) : Prop :=
  ∀ ps tokens, Reads (line ++ ps) tokens →
    consumeNewlines tokens = tokens ∧ atEnd tokens = false ∧
      ∃ stmts rest, parseLine tokens = .ok (stmts, rest) ∧
        stmts.map Statement.bare = statements ∧ Reads ps rest

/-- Pieces without a token. -/
inductive Silent : List Piece → Prop
  | none : Silent []
  | comment (text : Text) : Silent [.blank, .comment text]

theorem Silent.reads {cs ps : List Piece} {tokens : List Token} (h : Silent cs)
    (hreads : Reads (cs ++ ps) tokens) : Reads ps tokens := by
  cases h with
  | none => exact hreads
  | comment text =>
      cases hreads with
      | blank hreads =>
          cases hreads with
          | comment text hreads => exact hreads

theorem readsAs_label (name : Text) :
    ReadsAs [.word name, .mark .colon, .mark .newline] [.label ⟨toLower name, {}⟩] := by
  intro ps tokens hreads
  cases hreads with
  | word name span hreads =>
      cases hreads with
      | mark m span₁ hreads =>
          cases hreads with
          | mark m span₂ hreads => exact ⟨rfl, rfl, _, _, rfl, rfl, hreads⟩

/-- A statement ends at a line break. -/
theorem parseLabels_of_ne {token next : Token} {rest : List Token}
    (h : ¬(token.kind = .identifier ∧ next.kind = .colon)) :
    parseLabels (token :: next :: rest) = ([], token :: next :: rest) := by
  rw [parseLabels, if_neg h]

theorem parseRest_number {digits : Text} {ps : List Piece} {tokens : List Token}
    (hreads : Reads (.number false digits :: .mark .newline :: ps) tokens) :
    ∃ next operands span span₁ rest, tokens = next :: operands ∧ Reads ps rest ∧
      parseRest false tokens =
        .ok ([{ number := BitVec.ofNat 32 (Digits.value 16 digits), span }],
          { kind := .newline, text := ['\n'], span := span₁ } :: rest) := by
  cases hreads with
  | number marked digits span hreads =>
      cases hreads with
      | mark m span₁ hreads =>
          refine ⟨_, _, span, span₁, _, rfl, hreads, ?_⟩
          show parseOperands false _ = _
          rw [parseOperands_eq]
          rfl

/-- A directive with a number behind it. -/
theorem readsAs_directive {name : Text} (digits : Text) {type : DirectiveType}
    (h : ∀ (token : Token) {tokens rest : List Token} {operands : List Operand},
      token.kind = .directive → token.text = toLower name →
      parseRest false tokens = .ok (operands, rest) →
      parseDirective (token :: tokens) =
        .ok (.directive { type, operands, span := token.span }, rest)) :
    ReadsAs [.directive name, .blank, .number false digits, .mark .newline]
      [.directive { type,
                    operands := [{ number := BitVec.ofNat 32 (Digits.value 16 digits) }] }] := by
  intro ps tokens hreads
  cases hreads with
  | directive name span hreads =>
      cases hreads with
      | blank hreads =>
          obtain ⟨next, operands, span₁, span₂, rest, rfl, hrest, hparse⟩ := parseRest_number hreads
          have hdirective := h { kind := .directive, text := toLower name, span } rfl rfl hparse
          refine ⟨rfl, rfl, [.directive { type, span, operands :=
            [{ number := BitVec.ofNat 32 (Digits.value 16 digits), span := span₁ }] }], rest, ?_,
            rfl, hrest⟩
          unfold parseLine
          rw [parseLabels_of_ne fun h => TokenKind.noConfusion h.1]
          exact bind_eq_ok.mpr ⟨_, hdirective, rfl⟩

theorem readsAs_org (digits : Text) :
    ReadsAs [.directive "org".toList, .blank, .number false digits, .mark .newline]
      [.directive { type := .org,
                    operands := [{ number := BitVec.ofNat 32 (Digits.value 16 digits) }] }] := by
  apply readsAs_directive
  intro token tokens rest operands hkind htext hparse
  refine bind_eq_ok.mpr ⟨(token, tokens), if_pos hkind, ?_⟩
  show (if token.text = "equ".toList then _ else _) = _
  rw [htext, if_neg (by decide), if_pos (by decide)]
  exact bind_eq_ok.mpr ⟨_, hparse, rfl⟩

theorem readsAs_byte (digits : Text) :
    ReadsAs [.directive "byte".toList, .blank, .number false digits, .mark .newline]
      [.directive { type := .byte,
                    operands := [{ number := BitVec.ofNat 32 (Digits.value 16 digits) }] }] := by
  apply readsAs_directive
  intro token tokens rest operands hkind htext hparse
  refine bind_eq_ok.mpr ⟨(token, tokens), if_pos hkind, ?_⟩
  show (if token.text = "equ".toList then _ else _) = _
  rw [htext, if_neg (by decide), if_neg (by decide), if_pos (by decide)]
  exact bind_eq_ok.mpr ⟨_, hparse, rfl⟩

/-- A mnemonic with what stands behind it on the line. -/
theorem parseLine_instruction {token next : Token} {tokens rest : List Token} {span : Span}
    {operands : List Operand} (hkind : token.kind = .identifier) (hnext : next.kind ≠ .colon)
    (h : parseRest true (next :: tokens) =
      .ok (operands, { kind := .newline, text := ['\n'], span } :: rest)) :
    parseLine (token :: next :: tokens) =
      .ok ([.instruction ⟨token.text, operands, token.span⟩], rest) := by
  have hline : check (token :: next :: tokens) .newline = false := by
    show (token.kind == .newline) = false
    rw [hkind]
    rfl
  have hdirective : check (token :: next :: tokens) .directive = false := by
    show (token.kind == .directive) = false
    rw [hkind]
    rfl
  have hidentifier : check (token :: next :: tokens) .identifier = true := beq_iff_eq.mpr hkind
  have hparse : parseInstruction (token :: next :: tokens) =
      .ok (⟨token.text, operands, token.span⟩,
        { kind := .newline, text := ['\n'], span } :: rest) :=
    bind_eq_ok.mpr ⟨(token, next :: tokens), if_pos hkind, bind_eq_ok.mpr ⟨_, h, rfl⟩⟩
  unfold parseLine
  rw [parseLabels_of_ne fun hboth => hnext hboth.2]
  simp only [hline, hdirective, hidentifier, if_true, Bool.false_eq_true, if_false, hparse]
  rfl

theorem readsAs_implied (mnemonic : Text) {cs : List Piece} (hcs : Silent cs) :
    ReadsAs (.word mnemonic :: (cs ++ [.mark .newline]))
      [.instruction { mnemonic := toLower mnemonic }] := by
  intro ps tokens hreads
  rw [List.cons_append, List.append_assoc] at hreads
  cases hreads with
  | word name span hreads =>
      have hbehind := hcs.reads hreads
      cases hbehind with
      | mark m span₁ hrest =>
          refine ⟨rfl, rfl, [.instruction ⟨toLower mnemonic, [], span⟩], _, ?_, rfl, hrest⟩
          exact parseLine_instruction rfl (by exact TokenKind.noConfusion) rfl

theorem readsAs_operand (mnemonic : Text) {ops cs : List Piece} {operand : Operand}
    (hops : OperandPieces ops operand) (hcs : Silent cs) :
    ReadsAs (.word mnemonic :: .blank :: (ops ++ (cs ++ [.mark .newline])))
      [.instruction { mnemonic := toLower mnemonic, operands := [operand.bare] }] := by
  intro ps tokens hreads
  rw [List.cons_append, List.cons_append, List.append_assoc, List.append_assoc] at hreads
  cases hreads with
  | word name span hreads =>
      cases hreads with
      | blank hreads =>
          -- only the line break is left behind the operand
          have hbreak : ∀ {ts}, Reads (cs ++ ([.mark .newline] ++ ps)) ts → ∃ span rest,
              ts = { kind := .newline, text := ['\n'], span } :: rest ∧ Reads ps rest := by
            intro ts hts
            have hbehind := hcs.reads hts
            cases hbehind with
            | mark m span₁ hrest => exact ⟨span₁, _, rfl, hrest⟩
          have hcomma : ∀ ts, Reads (cs ++ ([.mark .newline] ++ ps)) ts →
              check ts .comma = false := by
            intro ts hts
            obtain ⟨span₁, rest, rfl, -⟩ := hbreak hts
            rfl
          obtain ⟨token, rest, ts, span₁, rfl, hkind, hts, hparse⟩ :=
            parseOperands_pieces hops hreads hcomma
          obtain ⟨span₂, rest', rfl, hrest⟩ := hbreak hts
          refine ⟨rfl, rfl,
            [.instruction ⟨toLower mnemonic, [{ operand with span := span₁ }], span⟩], rest', ?_,
            rfl, hrest⟩
          have hne : ∀ kind ∈ endKinds, token.kind ≠ kind := by
            rintro kind hmem rfl
            exact hkind hmem
          apply parseLine_instruction rfl (hne .colon (by decide))
          unfold parseRest
          rw [if_neg, hparse]
          rintro (hline | hend)
          · exact hne .newline (by decide) (beq_iff_eq.mp hline)
          · exact hne .endOfFile (by decide) (beq_iff_eq.mp hend)

/-- The parser reads lines back. -/
theorem parseFrom_lines {α : Type} {line : α → List Piece} {statements : α → List Statement}
    {l : List α} (h : ∀ x ∈ l, ReadsAs (line x) (statements x)) {tokens : List Token}
    (hreads : Reads (l.flatMap line) tokens) :
    ∃ stmts, parseFrom tokens = .ok stmts ∧ stmts.map Statement.bare = l.flatMap statements := by
  induction l generalizing tokens with
  | nil =>
      cases hreads with
      | done span =>
          refine ⟨[], ?_, rfl⟩
          rw [parseFrom_eq]
          rfl
  | cons x l ih =>
      obtain ⟨hline, hend, stmts, rest, hparse, hbare, hrest⟩ :=
        h x List.mem_cons_self _ tokens hreads
      obtain ⟨more, hmore, hbareMore⟩ := ih (fun y hy => h y (List.mem_cons_of_mem _ hy)) hrest
      refine ⟨stmts ++ more, ?_, ?_⟩
      · rw [parseFrom_eq, hline, hend, hparse]
        show (if false = true then _ else (parseFrom rest).map (stmts ++ ·)) = _
        rw [hmore]
        rfl
      · rw [List.map_append, hbare, hbareMore, List.flatMap_cons]

/-! ## Assembling a printed source -/

section Assemble

variable {Path : Type} [DecidableEq Path] {host : Host Path} {options : AssemblerOptions}

/-- There is nothing to include. -/
theorem processStatements_eq (fs : FileSystem Path)
    (recurse : List Path → Path → List Statement → Outcome Path) (dir : Path) (stack : List Path)
    {statements : List Statement} (h : ∀ stmt ∈ statements, stmt.includePath? = none) :
    processStatements fs recurse dir stack statements = some (.ok (statements, stack)) := by
  induction statements with
  | nil => rfl
  | cons stmt rest ih =>
      unfold processStatements
      rw [h stmt List.mem_cons_self, ih fun s hs => h s (List.mem_cons_of_mem _ hs)]

theorem includePath_bare {stmt : Statement} (h : stmt.bare.includePath? = none) :
    stmt.includePath? = none := by
  cases stmt with
  | label | equ | instruction => rfl
  | directive stmt =>
      have htype : ¬stmt.type = .include := by
        intro htype
        have hsome : Statement.includePath? (Statement.directive stmt).bare =
            some (stmt.includePath, {}) := if_pos htype
        rw [hsome] at h
        cases h
      exact if_neg htype

/-- A printed source is assembled to the ROM of its statements. -/
theorem assemble_printed {α : Type} {line : α → List Piece} {statements : α → List Statement}
    {l : List α} (hlines : ∀ x ∈ l, ReadsAs (line x) (statements x))
    (hvalid : ∀ p ∈ l.flatMap line, p.Valid) (hjoins : (l.flatMap line).IsChain Piece.Joins)
    (hinclude : ∀ stmt ∈ l.flatMap statements, stmt.includePath? = none) (levels : Nat)
    (filename : Text) (rom : List Byte) :
    (∃ result, assemble host (levels + 1) ((l.flatMap line).flatMap Piece.text) filename options =
        some (.ok result) ∧ result.rom = rom) ↔
      romOf host filename options (l.flatMap statements) = some rom := by
  obtain ⟨tokens, hlex, hreads⟩ := lexFrom_pieces filename hvalid hjoins 1 1
  obtain ⟨stmts, hparse, hbare⟩ := parseFrom_lines hlines hreads
  -- no statement is an include, so the host's files are not read
  have hnone : ∀ stmt ∈ stmts, stmt.includePath? = none := by
    intro stmt hstmt
    apply includePath_bare
    apply hinclude
    rw [← hbare]
    exact List.mem_map_of_mem hstmt
  have hread : (lex ((l.flatMap line).flatMap Piece.text) filename >>= parse) =
      .ok { statements := stmts } := by
    refine bind_eq_ok.mpr ⟨tokens, hlex, ?_⟩
    unfold parse
    rw [hparse]
    rfl
  have hexpand : expand host (levels + 1) ((l.flatMap line).flatMap Piece.text) filename =
      some (.ok { statements := stmts }) := by
    unfold expand
    rw [hread]
    show (processStatements host.toFileSystem _ _ [] stmts).map _ = _
    rw [processStatements_eq _ _ _ _ hnone]
    rfl
  -- the ROM does not depend on the places in the text
  rw [← hbare, romOf_bare]
  unfold romOf assemble
  rw [hexpand, Option.map_some]
  cases hassemble : assembleProgram host { statements := stmts } filename options with
  | error e =>
      constructor
      · rintro ⟨result, h, -⟩
        simp only [Except.bind, hassemble] at h
        cases h
      · intro h
        cases h
  | ok result =>
      simp only [Except.bind, hassemble]
      constructor
      · rintro ⟨result', h, hrom⟩
        cases h
        exact congrArg some hrom
      · intro h
        exact ⟨result, rfl, Option.some.inj h⟩

end Assemble

end Irata2.Assembler
