import Irata2.Assembler.Lexer

/-!
# The parser

Recursive descent over the tokens that are left.  The last token of a source is the end of the
file, which the parser never steps over.
-/

namespace Irata2.Assembler

open Library

/-! ## Looking at the tokens -/

def peek (tokens : List Token) : Token := tokens.headD {}

def check (tokens : List Token) (kind : TokenKind) : Bool := (peek tokens).kind == kind

def atEnd (tokens : List Token) : Bool := check tokens .endOfFile

/-- `Consume` -/
def consume (kind : TokenKind) (message : String) :
    List Token → Except AssemblerError (Token × List Token)
  | [] => .error ⟨(peek []).span, message⟩
  | token :: tokens =>
      if token.kind = kind then .ok (token, tokens) else .error ⟨token.span, message⟩

def consumeNewlines : List Token → List Token
  | [] => []
  | token :: tokens => if token.kind = .newline then consumeNewlines tokens else token :: tokens

/-! ## Operands -/

/-- The index register that a name stands for. -/
def indexRegister (text : Text) : IndexRegister :=
  if text = ['X'] ∨ text = ['x'] then .x
  else if text = ['Y'] ∨ text = ['y'] then .y
  else .none

/-- The index register inside the parentheses of an indirect operand. -/
def parseInnerIndex (operand : Operand) (tokens : List Token) :
    Except AssemblerError (Operand × List Token) :=
  if check tokens .comma then do
    let (reg, tokens) ← consume .identifier "expected index register after comma" tokens.tail
    throwIf (indexRegister reg.text ≠ .x)
      (⟨reg.span, "expected X index register inside parentheses"⟩ : AssemblerError)
    pure ({ operand with indexRegister := .x }, tokens)
  else pure (operand, tokens)

/-- `ParseOperand` -/
def parseOperand : List Token → Except AssemblerError (Operand × List Token)
  | [] => .error ⟨(peek []).span, "expected operand"⟩
  | token :: tokens =>
      match token.kind with
      | .hash => do
          let (name, tokens) ← consume .identifier "expected identifier after #" tokens
          pure ({ kind := .label, label := name.text, immediate := true, span := name.span }, tokens)
      | .leftParen => do
          let (operand, tokens) ← parseOperand tokens
          throwIf (operand.immediate = true)
            (⟨operand.span, "indirect operands cannot be immediate"⟩ : AssemblerError)
          let (operand, tokens) ← parseInnerIndex { operand with indirect := true } tokens
          let (_, tokens) ← consume .rightParen "expected ')' after indirect operand" tokens
          pure (operand, tokens)
      | .number =>
          pure ({ kind := .number, number := token.number.getD 0,
                  immediate := token.text.head? == some '#', span := token.span }, tokens)
      | .identifier => pure ({ kind := .label, label := token.text, span := token.span }, tokens)
      | _ => .error ⟨token.span, "expected operand"⟩

theorem consume_eq_ok {kind : TokenKind} {message : String} {tokens rest : List Token}
    {token : Token} (h : consume kind message tokens = .ok (token, rest)) :
    tokens = token :: rest ∧ token.kind = kind := by
  cases tokens with
  | nil => cases h
  | cons t ts =>
      change (if t.kind = kind then _ else _) = _ at h
      by_cases hkind : t.kind = kind
      · rw [if_pos hkind] at h
        cases h
        exact ⟨rfl, hkind⟩
      · rw [if_neg hkind] at h
        cases h

theorem parseInnerIndex_le {operand operand' : Operand} {tokens rest : List Token}
    (h : parseInnerIndex operand tokens = .ok (operand', rest)) :
    rest.length ≤ tokens.length := by
  unfold parseInnerIndex at h
  split at h
  · rcases bind_eq_ok.mp h with ⟨⟨reg, tokens'⟩, hreg, h⟩
    rcases seq_eq_ok.mp h with ⟨-, h⟩
    cases h
    have hlength := congrArg List.length (consume_eq_ok hreg).1
    rw [List.length_tail, List.length_cons] at hlength
    omega
  · cases h
    exact Nat.le_refl _

theorem parseOperand_lt {operand : Operand} {tokens rest : List Token}
    (h : parseOperand tokens = .ok (operand, rest)) : rest.length < tokens.length := by
  induction tokens generalizing operand rest with
  | nil => cases h
  | cons token tokens ih =>
      unfold parseOperand at h
      split at h
      · rcases bind_eq_ok.mp h with ⟨⟨name, tokens'⟩, hname, h⟩
        cases h
        have hlength := congrArg List.length (consume_eq_ok hname).1
        rw [List.length_cons] at hlength ⊢
        omega
      · rcases bind_eq_ok.mp h with ⟨⟨inner, tokens₁⟩, hinner, h⟩
        rcases seq_eq_ok.mp h with ⟨-, h⟩
        rcases bind_eq_ok.mp h with ⟨⟨indexed, tokens₂⟩, hindex, h⟩
        rcases bind_eq_ok.mp h with ⟨⟨paren, tokens₃⟩, hparen, h⟩
        cases h
        have h₁ := ih hinner
        have h₂ := parseInnerIndex_le hindex
        have h₃ := congrArg List.length (consume_eq_ok hparen).1
        rw [List.length_cons] at h₃ ⊢
        omega
      · cases h
        exact Nat.lt_succ_self _
      · cases h
        exact Nat.lt_succ_self _
      · cases h

/-- The operands of a statement.  Only those of an instruction may end with an index register. -/
def parseOperands (indexed : Bool) (tokens : List Token) :
    Except AssemblerError (List Operand × List Token) :=
  match h : parseOperand tokens with
  | .error e => .error e
  | .ok (operand, rest) =>
      if check rest .comma then
        if indexed ∧ check rest.tail .identifier ∧
            indexRegister (peek rest.tail).text ≠ .none then
          .ok ([{ operand with indexRegister := indexRegister (peek rest.tail).text }],
            rest.tail.tail)
        else (parseOperands indexed rest.tail).map fun (operands, tokens) =>
          (operand :: operands, tokens)
      else .ok ([operand], rest)
termination_by tokens.length
decreasing_by
  have := parseOperand_lt h
  rw [List.length_tail]
  omega

theorem parseOperands_eq (indexed : Bool) (tokens : List Token) :
    parseOperands indexed tokens = parseOperand tokens >>= fun (operand, rest) =>
      if check rest .comma then
        if indexed ∧ check rest.tail .identifier ∧
            indexRegister (peek rest.tail).text ≠ .none then
          .ok ([{ operand with indexRegister := indexRegister (peek rest.tail).text }],
            rest.tail.tail)
        else (parseOperands indexed rest.tail).map fun (operands, tokens) =>
          (operand :: operands, tokens)
      else .ok ([operand], rest) := by
  conv_lhs => rw [parseOperands]
  split
  · rename_i h
    rw [h]
    rfl
  · rename_i h
    rw [h]
    rfl

/-! ## Statements -/

/-- The operands up to the end of the line. -/
def parseRest (indexed : Bool) (tokens : List Token) :
    Except AssemblerError (List Operand × List Token) :=
  if check tokens .newline ∨ check tokens .endOfFile then .ok ([], tokens)
  else parseOperands indexed tokens

/-- `ParseInstruction` -/
def parseInstruction (tokens : List Token) :
    Except AssemblerError (InstructionStmt × List Token) := do
  let (mnemonic, tokens) ← consume .identifier "expected instruction mnemonic" tokens
  let (operands, tokens) ← parseRest true tokens
  pure (⟨mnemonic.text, operands, mnemonic.span⟩, tokens)

/-- `ParseDirective` -/
def parseDirective (tokens : List Token) : Except AssemblerError (Statement × List Token) := do
  let (directive, tokens) ← consume .directive "expected directive" tokens
  if directive.text = "equ".toList then
    let (name, tokens) ← consume .identifier "expected constant name after .equ" tokens
    let (_, tokens) ← consume .comma "expected comma after constant name" tokens
    let (value, tokens) ← consume .number "expected numeric value for .equ" tokens
    pure (.equ ⟨name.text, value.number.getD 0, directive.span⟩, tokens)
  else if directive.text = "org".toList then
    let (operands, tokens) ← parseRest false tokens
    pure (.directive { type := .org, operands, span := directive.span }, tokens)
  else if directive.text = "byte".toList then
    let (operands, tokens) ← parseRest false tokens
    pure (.directive { type := .byte, operands, span := directive.span }, tokens)
  else if directive.text = "include".toList then
    let (path, tokens) ← consume .string "expected string literal for include path" tokens
    pure (.directive { type := .include, includePath := path.stringValue.getD [],
                       span := directive.span }, tokens)
  else .error ⟨directive.span, "unknown directive"⟩

/-- The labels in front of a statement. -/
def parseLabels : List Token → List Statement × List Token
  | name :: colon :: tokens =>
      if name.kind = .identifier ∧ colon.kind = .colon then
        if check tokens .newline then ([.label ⟨name.text, name.span⟩], tokens)
        else
          let (labels, rest) := parseLabels tokens
          (.label ⟨name.text, name.span⟩ :: labels, rest)
      else ([], name :: colon :: tokens)
  | tokens => ([], tokens)

/-- The end of a statement's line. -/
def parseEndOfLine (tokens : List Token) : Except AssemblerError (List Token) :=
  if check tokens .newline then .ok tokens.tail
  else if atEnd tokens then .ok tokens
  else .error ⟨(peek tokens).span, "expected end of line"⟩

/-- One turn of the loop of `Parse`, at a token that is no line break. -/
def parseLine (tokens : List Token) : Except AssemblerError (List Statement × List Token) :=
  let (labels, tokens) := parseLabels tokens
  if check tokens .newline then .ok (labels, tokens.tail)
  else if check tokens .directive then do
    let (stmt, tokens) ← parseDirective tokens
    let tokens ← parseEndOfLine tokens
    pure (labels ++ [stmt], tokens)
  else if check tokens .identifier then do
    let (stmt, tokens) ← parseInstruction tokens
    let tokens ← parseEndOfLine tokens
    pure (labels ++ [.instruction stmt], tokens)
  else if labels.isEmpty then
    .error ⟨(peek tokens).span, "expected label, directive, or instruction"⟩
  else .ok (labels, consumeNewlines tokens)

/-! ## Every line consumes tokens -/

theorem length_consumeNewlines (tokens : List Token) :
    (consumeNewlines tokens).length ≤ tokens.length := by
  induction tokens with
  | nil => exact Nat.le_refl _
  | cons token tokens ih =>
      unfold consumeNewlines
      split
      · exact Nat.le_succ_of_le ih
      · exact Nat.le_refl _

theorem length_parseLabels (tokens : List Token) :
    (parseLabels tokens).2.length + (parseLabels tokens).1.length ≤ tokens.length := by
  induction tokens using parseLabels.induct with
  | case1 name colon tokens h hnewline =>
      rw [parseLabels, if_pos h, if_pos hnewline]
      exact Nat.le_succ _
  | case2 name colon tokens h hnewline ih =>
      rw [parseLabels, if_pos h, if_neg hnewline]
      show (parseLabels tokens).2.length + ((parseLabels tokens).1.length + 1) ≤
        tokens.length + 1 + 1
      omega
  | case3 name colon tokens h =>
      rw [parseLabels, if_neg h]
      exact Nat.le_refl _
  | case4 tokens h =>
      rw [parseLabels]
      · exact Nat.le_refl _
      · exact h

theorem parseOperands_lt {indexed : Bool} {operands : List Operand} {tokens rest : List Token}
    (h : parseOperands indexed tokens = .ok (operands, rest)) : rest.length < tokens.length := by
  induction hn : tokens.length using Nat.strong_induction_on generalizing tokens operands rest with
  | _ n ih =>
      rw [parseOperands_eq] at h
      rcases bind_eq_ok.mp h with ⟨⟨operand, tokens'⟩, hoperand, h⟩
      have hlt := parseOperand_lt hoperand
      simp only at h
      split at h
      · split at h
        · cases h
          rw [List.length_tail, List.length_tail]
          omega
        · cases hrest : parseOperands indexed tokens'.tail with
          | error e =>
              rw [hrest] at h
              cases h
          | ok p =>
              rw [hrest] at h
              cases h
              have htail := List.length_tail (l := tokens')
              have := ih _ (by omega) hrest rfl
              omega
      · cases h
        omega

theorem parseRest_le {indexed : Bool} {operands : List Operand} {tokens rest : List Token}
    (h : parseRest indexed tokens = .ok (operands, rest)) : rest.length ≤ tokens.length := by
  unfold parseRest at h
  split at h
  · cases h
    exact Nat.le_refl _
  · exact (parseOperands_lt h).le

theorem consume_lt {kind : TokenKind} {message : String} {tokens rest : List Token}
    {token : Token} (h : consume kind message tokens = .ok (token, rest)) :
    rest.length < tokens.length := by
  rw [(consume_eq_ok h).1]
  exact Nat.lt_succ_self _

theorem parseInstruction_lt {stmt : InstructionStmt} {tokens rest : List Token}
    (h : parseInstruction tokens = .ok (stmt, rest)) : rest.length < tokens.length := by
  rcases bind_eq_ok.mp h with ⟨⟨mnemonic, tokens₁⟩, hmnemonic, h⟩
  rcases bind_eq_ok.mp h with ⟨⟨operands, tokens₂⟩, hoperands, h⟩
  cases h
  exact (parseRest_le hoperands).trans_lt (consume_lt hmnemonic)

theorem parseDirective_lt {stmt : Statement} {tokens rest : List Token}
    (h : parseDirective tokens = .ok (stmt, rest)) : rest.length < tokens.length := by
  rcases bind_eq_ok.mp h with ⟨⟨directive, tokens₁⟩, hdirective, h⟩
  have hlt := consume_lt hdirective
  simp only at h
  split at h
  · rcases bind_eq_ok.mp h with ⟨⟨name, tokens₂⟩, hname, h⟩
    rcases bind_eq_ok.mp h with ⟨⟨comma, tokens₃⟩, hcomma, h⟩
    rcases bind_eq_ok.mp h with ⟨⟨value, tokens₄⟩, hvalue, h⟩
    cases h
    exact ((consume_lt hvalue).trans (consume_lt hcomma)).trans ((consume_lt hname).trans hlt)
  split at h
  · rcases bind_eq_ok.mp h with ⟨⟨operands, tokens₂⟩, hoperands, h⟩
    cases h
    exact (parseRest_le hoperands).trans_lt hlt
  split at h
  · rcases bind_eq_ok.mp h with ⟨⟨operands, tokens₂⟩, hoperands, h⟩
    cases h
    exact (parseRest_le hoperands).trans_lt hlt
  split at h
  · rcases bind_eq_ok.mp h with ⟨⟨path, tokens₂⟩, hpath, h⟩
    cases h
    exact (consume_lt hpath).trans hlt
  · cases h

theorem parseEndOfLine_le {tokens rest : List Token} (h : parseEndOfLine tokens = .ok rest) :
    rest.length ≤ tokens.length := by
  unfold parseEndOfLine at h
  split at h
  · cases h
    rw [List.length_tail]
    omega
  split at h
  · cases h
    exact Nat.le_refl _
  · cases h

theorem ne_nil_of_check {tokens : List Token} {kind : TokenKind} (hkind : kind ≠ .endOfFile)
    (h : check tokens kind = true) : 0 < tokens.length := by
  cases tokens with
  | nil => exact absurd (beq_iff_eq.mp h).symm hkind
  | cons token tokens => exact Nat.succ_pos _

theorem parseLine_lt {stmts : List Statement} {tokens rest : List Token}
    (h : parseLine tokens = .ok (stmts, rest)) : rest.length < tokens.length := by
  have hlabels := length_parseLabels tokens
  unfold parseLine at h
  rcases hparse : parseLabels tokens with ⟨labels, tokens'⟩
  rw [hparse] at h hlabels
  simp only at h hlabels
  split at h
  · rename_i hnewline
    have hpos := ne_nil_of_check (by decide) hnewline
    cases h
    rw [List.length_tail]
    omega
  split at h
  · rcases bind_eq_ok.mp h with ⟨⟨stmt, tokens₁⟩, hstmt, h⟩
    rcases bind_eq_ok.mp h with ⟨tokens₂, hend, h⟩
    cases h
    have h₁ := (parseEndOfLine_le hend).trans_lt (parseDirective_lt hstmt)
    omega
  split at h
  · rcases bind_eq_ok.mp h with ⟨⟨stmt, tokens₁⟩, hstmt, h⟩
    rcases bind_eq_ok.mp h with ⟨tokens₂, hend, h⟩
    cases h
    have h₁ := (parseEndOfLine_le hend).trans_lt (parseInstruction_lt hstmt)
    omega
  split at h
  · cases h
  · rename_i hempty
    have hpos : 0 < labels.length := by
      rw [List.length_pos_iff]
      intro hnil
      rw [hnil] at hempty
      exact hempty rfl
    cases h
    have hskip := length_consumeNewlines tokens'
    omega

/-! ## Programs -/

/-- The statements from a token on. -/
def parseFrom (tokens : List Token) : Except AssemblerError (List Statement) :=
  if atEnd (consumeNewlines tokens) then .ok []
  else
    match h : parseLine (consumeNewlines tokens) with
    | .error e => .error e
    | .ok (stmts, rest) => (parseFrom rest).map (stmts ++ ·)
termination_by tokens.length
decreasing_by exact (parseLine_lt h).trans_le (length_consumeNewlines tokens)

/-- `Parser::Parse` -/
def parse (tokens : List Token) : Except AssemblerError Program :=
  (parseFrom tokens).map fun statements => { statements }

theorem parseFrom_eq (tokens : List Token) :
    parseFrom tokens =
      if atEnd (consumeNewlines tokens) then .ok []
      else parseLine (consumeNewlines tokens) >>= fun line =>
        (parseFrom line.2).map (line.1 ++ ·) := by
  conv_lhs => rw [parseFrom]
  split
  · rfl
  · split
    · rename_i h
      rw [h]
      rfl
    · rename_i h
      rw [h]
      rfl

end Irata2.Assembler
