import Irata2.Assembler.Parser
import Irata2.Library.Digits

/-!
# Numeric literals

What a literal means, as a number without bounds, and what the lexer makes of it in 32 bits.
-/

namespace Irata2.Assembler

open Library

/-! ## Meaning -/

/-- The ways to write a number: a base, and the digits in it. -/
inductive NumberForm : Text → Nat → Text → Prop
  | decimal (digits : Text) : NumberForm digits 10 digits
  | dollar (digits : Text) : NumberForm ('$' :: digits) 16 digits
  | percent (digits : Text) : NumberForm ('%' :: digits) 2 digits
  | hexadecimal {x : Char} (hx : x = 'x' ∨ x = 'X') (digits : Text) :
      NumberForm ('0' :: x :: digits) 16 digits
  | binary {b : Char} (hb : b = 'b' ∨ b = 'B') (digits : Text) :
      NumberForm ('0' :: b :: digits) 2 digits

/-- A run of digits of a base. -/
structure AreDigits (base : Nat) (digits : Text) : Prop where
  nonempty : digits ≠ []
  valid : ∀ ch ∈ digits, ∃ d < base, Digits.digit ch = some d

/-- A literal, with or without the mark of an immediate operand, means a number. -/
inductive LiteralValue : Text → Nat → Prop
  | plain {text digits : Text} {base : Nat} (hform : NumberForm text base digits)
      (hdigits : AreDigits base digits) : LiteralValue text (Digits.value base digits)
  | marked {text digits : Text} {base : Nat} (hform : NumberForm text base digits)
      (hdigits : AreDigits base digits) : LiteralValue ('#' :: text) (Digits.value base digits)

/-! ## Reading digits -/

/-- The loop over the digits computes their value, modulo 2 ^ 32. -/
theorem foldlM_parseDigit {span : Span} {base : Nat} {digits : Text} {acc : Nat}
    {v : BitVec 32} :
    digits.foldlM (parseDigit span base) (BitVec.ofNat 32 acc) = .ok v ↔
      (∀ ch ∈ digits, ∃ d < base, Digits.digit ch = some d) ∧
        v = BitVec.ofNat 32
          (digits.foldl (fun n ch => base * n + (Digits.digit ch).getD 0) acc) := by
  induction digits generalizing acc with
  | nil =>
      constructor
      · intro h
        cases h
        exact ⟨fun ch hch => (by cases hch), rfl⟩
      · rintro ⟨-, rfl⟩
        rfl
  | cons ch rest ih =>
      rw [foldlM_cons_eq_ok, List.forall_mem_cons]
      unfold parseDigit
      have hdigit : digitValue ch = Digits.digit ch := rfl
      rw [hdigit]
      cases hd : Digits.digit ch with
      | none =>
          constructor
          · rintro ⟨_, h, -⟩
            cases h
          · rintro ⟨⟨⟨d, -, h⟩, -⟩, -⟩
            cases h
      | some d =>
          simp only
          by_cases hlt : d ≥ base
          · rw [if_pos hlt]
            constructor
            · rintro ⟨_, h, -⟩
              cases h
            · rintro ⟨⟨⟨d', hd', h⟩, -⟩, -⟩
              cases h
              omega
          · rw [if_neg hlt]
            -- the accumulator stands for a number that the 32 bits cut off
            have hstep : BitVec.ofNat 32 acc * BitVec.ofNat 32 base + BitVec.ofNat 32 d =
                BitVec.ofNat 32 (base * acc + d) := by
              rw [BitVec.ofNat_add, BitVec.ofNat_mul, BitVec.mul_comm]
            rw [hstep]
            show (∃ s₁, Except.ok _ = Except.ok s₁ ∧ rest.foldlM _ s₁ = _) ↔ _ ∧
              v = BitVec.ofNat 32 (rest.foldl _ (base * acc + (Digits.digit ch).getD 0))
            rw [hd]
            constructor
            · rintro ⟨s₁, h, hrest⟩
              cases h
              rcases ih.mp hrest with ⟨hvalid, hv⟩
              exact ⟨⟨⟨d, Nat.not_le.mp hlt, rfl⟩, hvalid⟩, hv⟩
            · rintro ⟨⟨-, hvalid⟩, hv⟩
              exact ⟨_, rfl, ih.mpr ⟨hvalid, hv⟩⟩

/-- No digit is one of the letters of the prefixes in a base below the letters. -/
theorem not_digits_of_letter {x : Char} {base : Nat} (front : Text) {back : Text}
    (hx : ∀ d < base, Digits.digit x ≠ some d) : ¬AreDigits base (front ++ x :: back) := by
  intro h
  rcases h.valid x (List.mem_append_right _ List.mem_cons_self) with ⟨d, hd, hdigit⟩
  exact hx d hd hdigit

theorem letter_not_decimal {x : Char}
    (hx : x = 'x' ∨ x = 'X' ∨ x = 'b' ∨ x = 'B' ∨ x = '$' ∨ x = '%' ∨ x = '#') :
    ∀ d < 10, Digits.digit x ≠ some d := by
  rcases hx with rfl | rfl | rfl | rfl | rfl | rfl | rfl <;> decide

/-- The prefix that the source cuts off is that of the form in which the digits are valid. -/
theorem splitBase_of_form {text digits : Text} {base : Nat} (hform : NumberForm text base digits)
    (hdigits : AreDigits base digits) : splitBase text = (base, digits) := by
  cases hform with
  | decimal =>
      unfold splitBase
      split
      · exact absurd hdigits (not_digits_of_letter [] (letter_not_decimal (by simp)))
      · exact absurd hdigits (not_digits_of_letter [] (letter_not_decimal (by simp)))
      · rename_i x d value
        have hletter : ∀ c, c = 'x' ∨ c = 'X' ∨ c = 'b' ∨ c = 'B' → x ≠ c := by
          intro c hc hxc
          subst hxc
          exact not_digits_of_letter ['0'] (letter_not_decimal (by tauto)) hdigits
        rw [if_neg (by rintro (h | h) <;> exact hletter _ (by simp) h),
          if_neg (by rintro (h | h) <;> exact hletter _ (by simp) h)]
      · rfl
  | dollar => rfl
  | percent => rfl
  | hexadecimal hx =>
      match digits, hdigits with
      | [], hdigits => exact absurd rfl hdigits.nonempty
      | d :: rest, _ => exact if_pos hx
  | binary hb =>
      match digits, hdigits with
      | [], hdigits => exact absurd rfl hdigits.nonempty
      | d :: rest, _ =>
          rcases hb with rfl | rfl
          · rfl
          · rfl

theorem form_of_splitBase (text : Text) :
    NumberForm text (splitBase text).1 (splitBase text).2 := by
  unfold splitBase
  split
  · exact .dollar _
  · exact .percent _
  · split
    · rename_i hx
      exact .hexadecimal hx _
    · split
      · rename_i hb
        exact .binary hb _
      · exact .decimal _
  · exact .decimal _

/-- What the lexer accepts as a literal, and the number it gives. -/
theorem parseNumberLiteral_eq_ok {text : Text} {span : Span} {v : BitVec 32} :
    parseNumberLiteral text span = .ok v ↔ ∃ n, LiteralValue text n ∧ v = BitVec.ofNat 32 n := by
  -- the digits are read the same with and without the number sign
  have hread : ∀ value : Text, (do
      throwIf (splitBase value).2.isEmpty (⟨span, "invalid numeric literal"⟩ : AssemblerError)
      (splitBase value).2.foldlM (parseDigit span (splitBase value).1) 0) = .ok v ↔
      AreDigits (splitBase value).1 (splitBase value).2 ∧
        v = BitVec.ofNat 32 (Digits.value (splitBase value).1 (splitBase value).2) := by
    intro value
    have hfold := @foldlM_parseDigit span (splitBase value).1 (splitBase value).2 0 v
    rw [seq_eq_ok, throwIf_eq_ok]
    constructor
    · rintro ⟨hnonempty, h⟩
      rcases hfold.mp h with ⟨hvalid, hv⟩
      exact ⟨⟨fun hnil => hnonempty (by rw [hnil]; rfl), hvalid⟩, hv⟩
    · rintro ⟨hdigits, hv⟩
      exact ⟨fun h => hdigits.nonempty (List.isEmpty_iff.mp h), hfold.mpr ⟨hdigits.valid, hv⟩⟩
  have hplain : parseNumberLiteral text span = _ ↔ _ :=
    hread (if text.head? = some '#' then text.tail else text)
  rw [hplain]
  constructor
  · rintro ⟨hdigits, hv⟩
    refine ⟨_, ?_, hv⟩
    by_cases hhash : text.head? = some '#'
    · rw [if_pos hhash] at hdigits ⊢
      have hmarked := LiteralValue.marked (form_of_splitBase text.tail) hdigits
      rw [List.cons_head?_tail hhash] at hmarked
      exact hmarked
    · rw [if_neg hhash] at hdigits ⊢
      exact .plain (form_of_splitBase text) hdigits
  · rintro ⟨n, hn, hv⟩
    cases hn with
    | @plain text digits base hform hdigits =>
        -- the number sign is no digit, so a literal without it does not start with one
        have hhash : ¬text.head? = some '#' := by
          intro hhead
          rw [← List.cons_head?_tail hhead] at hform
          cases hform with
          | decimal =>
              exact not_digits_of_letter [] (letter_not_decimal (by simp)) hdigits
        rw [if_neg hhash, splitBase_of_form hform hdigits]
        exact ⟨hdigits, hv⟩
    | @marked text digits base hform hdigits =>
        rw [if_pos (List.head?_cons), List.tail_cons, splitBase_of_form hform hdigits]
        exact ⟨hdigits, hv⟩

/-- A literal has one meaning. -/
theorem LiteralValue.unique {text : Text} {n m : Nat} (hn : LiteralValue text n)
    (hm : LiteralValue text m) : n = m := by
  have hmarked : ∀ {rest digits : Text} {base : Nat}, NumberForm ('#' :: rest) base digits →
      ¬AreDigits base digits := by
    intro rest digits base hform hdigits
    cases hform with
    | decimal => exact not_digits_of_letter [] (letter_not_decimal (by simp)) hdigits
  have hsame : ∀ {text digits digits' : Text} {base base' : Nat}, NumberForm text base digits →
      NumberForm text base' digits' → AreDigits base digits → AreDigits base' digits' →
      Digits.value base digits = Digits.value base' digits' := by
    intro text digits digits' base base' hform hform' hdigits hdigits'
    have heq := (splitBase_of_form hform hdigits).symm.trans (splitBase_of_form hform' hdigits')
    cases heq
    rfl
  cases hn with
  | plain hform hdigits =>
      cases hm with
      | plain hform' hdigits' => exact hsame hform hform' hdigits hdigits'
      | marked => exact absurd hdigits (hmarked hform)
  | marked hform hdigits =>
      cases hm with
      | plain hform' hdigits' => exact absurd hdigits' (hmarked hform')
      | marked hform' hdigits' => exact hsame hform hform' hdigits hdigits'

/-! ## Literals of a source -/

theorem kind_lexIdentifierOrDirective {filename : Text} {c c' : Cursor} {token : Token}
    (h : lexIdentifierOrDirective filename c = .ok (token, c')) : token.kind ≠ .number := by
  unfold lexIdentifierOrDirective at h
  rcases seq_eq_ok.mp h with ⟨-, h⟩
  cases h
  simp only
  split
  · decide
  · decide

theorem kind_lexString {filename : Text} {c c' : Cursor} {token : Token}
    (h : lexString filename c = .ok (token, c')) : token.kind ≠ .number := by
  unfold lexString at h
  rcases bind_eq_ok.mp h with ⟨p, -, h⟩
  cases h
  show TokenKind.string ≠ .number
  decide

theorem lexNumber_eq_ok {filename : Text} {c c' : Cursor} {token : Token}
    (h : lexNumber filename c = .ok (token, c')) :
    ∃ v, token.number = some v ∧ parseNumberLiteral token.text token.span = .ok v := by
  unfold lexNumber at h
  rcases bind_eq_ok.mp h with ⟨v, hv, h⟩
  cases h
  exact ⟨v, rfl, hv⟩

/-- The number of a token is what the lexer makes of its text. -/
theorem lexToken_number {filename : Text} {c c' : Cursor} {token : Token}
    (h : lexToken filename c = .ok (token, c')) (hkind : token.kind = .number) :
    ∃ v, token.number = some v ∧ parseNumberLiteral token.text token.span = .ok v := by
  unfold lexToken at h
  cases hend : c.atEnd with
  | true =>
      rw [if_pos hend] at h
      cases h
      cases hkind
  | false =>
      -- of all the tokens only the last two kinds are numbers
      rw [if_neg (by rw [hend]; decide)] at h
      simp only at h
      split at h
      · cases h
        cases hkind
      split at h
      · cases h
        cases hkind
      split at h
      · cases h
        cases hkind
      split at h
      · cases h
        cases hkind
      split at h
      · cases h
        cases hkind
      split at h
      · exact absurd hkind (kind_lexString h)
      split at h
      · exact absurd hkind (kind_lexIdentifierOrDirective h)
      split at h
      · exact absurd hkind (kind_lexIdentifierOrDirective h)
      split at h
      · split at h
        · cases h
          cases hkind
        · exact lexNumber_eq_ok h
      split at h
      · exact lexNumber_eq_ok h
      · cases h

theorem nextToken_number {filename : Text} {c c' : Cursor} {token : Token}
    (h : nextToken filename c = .ok (token, c')) (hkind : token.kind = .number) :
    ∃ v, token.number = some v ∧ parseNumberLiteral token.text token.span = .ok v := by
  unfold nextToken at h
  simp only at h
  split at h
  · exact lexToken_number h hkind
  · exact lexToken_number h hkind

theorem lexFrom_number {filename : Text} {c : Cursor} {tokens : List Token}
    (h : lexFrom filename c = .ok tokens) {token : Token} (hmem : token ∈ tokens)
    (hkind : token.kind = .number) :
    ∃ v, token.number = some v ∧ parseNumberLiteral token.text token.span = .ok v := by
  induction hn : c.rest.length using Nat.strong_induction_on generalizing c tokens with
  | _ n ih =>
      rw [lexFrom] at h
      split at h
      · cases h
      · rename_i first c' hfirst
        split at h
        · cases h
          rw [List.mem_singleton.mp hmem] at hkind ⊢
          exact nextToken_number hfirst hkind
        · rename_i hother
          have hlt := nextToken_lt hfirst hother
          cases hrest : lexFrom filename c' with
          | error e =>
              rw [hrest] at h
              cases h
          | ok rest =>
              rw [hrest] at h
              cases h
              rcases List.mem_cons.mp hmem with rfl | hmem
              · exact nextToken_number hfirst hkind
              · exact ih _ (by omega) hrest hmem rfl

/-! ## Literals of a program -/

/-- The numbers of the operands that are literals. -/
def operandNumbers (operands : List Operand) : List (BitVec 32) :=
  (operands.filter (·.kind = .number)).map Operand.number

/-- The numbers that a statement takes from its literals, in their order. -/
def Statement.numbers : Statement → List (BitVec 32)
  | .label _ => []
  | .equ decl => [decl.value]
  | .instruction stmt => operandNumbers stmt.operands
  | .directive stmt => if stmt.type = .include then [] else operandNumbers stmt.operands

/-- The literals among the tokens. -/
def literalsOf (tokens : List Token) : List Token := tokens.filter (·.kind = .number)

/-- The numbers of the literals among the tokens. -/
def numbersOf (tokens : List Token) : List (BitVec 32) :=
  (literalsOf tokens).map fun token => token.number.getD 0

theorem numbersOf_cons_number {token : Token} (tokens : List Token) (h : token.kind = .number) :
    numbersOf (token :: tokens) = token.number.getD 0 :: numbersOf tokens := by
  unfold numbersOf literalsOf
  rw [List.filter_cons_of_pos (by exact decide_eq_true h), List.map_cons]

theorem numbersOf_cons_other {token : Token} (tokens : List Token) (h : token.kind ≠ .number) :
    numbersOf (token :: tokens) = numbersOf tokens := by
  unfold numbersOf literalsOf
  rw [List.filter_cons_of_neg (by rw [decide_eq_true_iff]; exact h)]

/-- Stepping over a token that is no literal. -/
theorem numbersOf_tail {tokens : List Token} {kind : TokenKind} (hkind : kind ≠ .number)
    (h : check tokens kind = true) : numbersOf tokens.tail = numbersOf tokens := by
  cases tokens with
  | nil => rfl
  | cons token tokens =>
      have htoken : token.kind = kind := beq_iff_eq.mp h
      exact (numbersOf_cons_other tokens (htoken ▸ hkind)).symm

theorem numbersOf_consume {kind : TokenKind} {message : String} {tokens rest : List Token}
    {token : Token} (hkind : kind ≠ .number)
    (h : consume kind message tokens = .ok (token, rest)) : numbersOf tokens = numbersOf rest := by
  obtain ⟨rfl, htoken⟩ := consume_eq_ok h
  exact numbersOf_cons_other rest (htoken ▸ hkind)

theorem operandNumbers_cons (operand : Operand) (operands : List Operand) :
    operandNumbers (operand :: operands) =
      operandNumbers [operand] ++ operandNumbers operands := by
  unfold operandNumbers
  rw [← List.map_append, ← List.filter_append, List.singleton_append]

/-- An operand has the literals of another one that differs in its marks. -/
theorem operandNumbers_congr {operand operand' : Operand} (hkind : operand'.kind = operand.kind)
    (hnumber : operand'.number = operand.number) :
    operandNumbers [operand'] = operandNumbers [operand] := by
  unfold operandNumbers
  by_cases h : operand.kind = .number
  · rw [List.filter_cons_of_pos (by exact decide_eq_true (hkind.trans h)),
      List.filter_cons_of_pos (by exact decide_eq_true h), List.map_cons, List.map_cons, hnumber]
  · rw [List.filter_cons_of_neg (by rw [decide_eq_true_iff, hkind]; exact h),
      List.filter_cons_of_neg (by rw [decide_eq_true_iff]; exact h)]

theorem parseInnerIndex_numbers {operand operand' : Operand} {tokens rest : List Token}
    (h : parseInnerIndex operand tokens = .ok (operand', rest)) :
    operandNumbers [operand'] = operandNumbers [operand] ∧ numbersOf tokens = numbersOf rest := by
  unfold parseInnerIndex at h
  split at h
  · rename_i hcomma
    obtain ⟨⟨reg, tokens'⟩, hreg, h⟩ := bind_eq_ok.mp h
    obtain ⟨-, h⟩ := seq_eq_ok.mp h
    cases h
    exact ⟨operandNumbers_congr rfl rfl,
      (numbersOf_tail (by decide) hcomma).symm.trans (numbersOf_consume (by decide) hreg)⟩
  · cases h
    exact ⟨rfl, rfl⟩

/-- An operand takes the number of the literal in front of the rest. -/
theorem parseOperand_numbers {operand : Operand} {tokens rest : List Token}
    (h : parseOperand tokens = .ok (operand, rest)) :
    numbersOf tokens = operandNumbers [operand] ++ numbersOf rest := by
  induction tokens generalizing operand rest with
  | nil => cases h
  | cons token tokens ih =>
      unfold parseOperand at h
      split at h
      · rename_i hkind
        obtain ⟨⟨name, tokens'⟩, hname, h⟩ := bind_eq_ok.mp h
        cases h
        rw [numbersOf_cons_other _ (by rw [hkind]; decide), numbersOf_consume (by decide) hname]
        rfl
      · rename_i hkind
        obtain ⟨⟨inner, tokens₁⟩, hinner, h⟩ := bind_eq_ok.mp h
        obtain ⟨-, h⟩ := seq_eq_ok.mp h
        obtain ⟨⟨indexed, tokens₂⟩, hindex, h⟩ := bind_eq_ok.mp h
        obtain ⟨⟨paren, tokens₃⟩, hparen, h⟩ := bind_eq_ok.mp h
        cases h
        obtain ⟨hsame, hrest⟩ := parseInnerIndex_numbers hindex
        rw [numbersOf_cons_other _ (by rw [hkind]; decide), ih hinner, hsame, hrest,
          numbersOf_consume (by decide) hparen]
        exact congrArg (· ++ _) (operandNumbers_congr rfl rfl)
      · rename_i hkind
        cases h
        exact numbersOf_cons_number tokens hkind
      · rename_i hkind
        cases h
        exact numbersOf_cons_other tokens (by rw [hkind]; decide)
      · cases h

theorem parseOperands_numbers {indexed : Bool} {operands : List Operand}
    {tokens rest : List Token} (h : parseOperands indexed tokens = .ok (operands, rest)) :
    numbersOf tokens = operandNumbers operands ++ numbersOf rest := by
  induction hn : tokens.length using Nat.strong_induction_on generalizing tokens operands rest with
  | _ n ih =>
      rw [parseOperands_eq] at h
      obtain ⟨⟨operand, tokens'⟩, hoperand, h⟩ := bind_eq_ok.mp h
      have hlt := parseOperand_lt hoperand
      rw [parseOperand_numbers hoperand]
      simp only at h
      split at h
      · rename_i hcomma
        have hbehind := numbersOf_tail (by decide) hcomma
        split at h
        · -- the index register is a name
          rename_i hindex
          cases h
          have hsame : operandNumbers [{ operand with
              indexRegister := indexRegister (peek tokens'.tail).text }] =
              operandNumbers [operand] := operandNumbers_congr rfl rfl
          rw [hsame, numbersOf_tail (by decide) hindex.2.1, hbehind]
        · cases hrest : parseOperands indexed tokens'.tail with
          | error e =>
              rw [hrest] at h
              cases h
          | ok p =>
              rw [hrest] at h
              cases h
              have htail := List.length_tail (l := tokens')
              rw [operandNumbers_cons operand p.1, List.append_assoc, ← ih _ (by omega) hrest rfl,
                hbehind]
      · cases h
        rfl

theorem parseRest_numbers {indexed : Bool} {operands : List Operand} {tokens rest : List Token}
    (h : parseRest indexed tokens = .ok (operands, rest)) :
    numbersOf tokens = operandNumbers operands ++ numbersOf rest := by
  unfold parseRest at h
  split at h
  · cases h
    rfl
  · exact parseOperands_numbers h

theorem parseDirective_numbers {stmt : Statement} {tokens rest : List Token}
    (h : parseDirective tokens = .ok (stmt, rest)) :
    numbersOf tokens = stmt.numbers ++ numbersOf rest := by
  obtain ⟨⟨directive, tokens₁⟩, hdirective, h⟩ := bind_eq_ok.mp h
  rw [numbersOf_consume (by decide) hdirective]
  simp only at h
  split at h
  · obtain ⟨⟨name, tokens₂⟩, hname, h⟩ := bind_eq_ok.mp h
    obtain ⟨⟨comma, tokens₃⟩, hcomma, h⟩ := bind_eq_ok.mp h
    obtain ⟨⟨value, tokens₄⟩, hvalue, h⟩ := bind_eq_ok.mp h
    cases h
    have hcons : tokens₃ = value :: tokens₄ := (consume_eq_ok hvalue).1
    have hkind := (consume_eq_ok hvalue).2
    rw [numbersOf_consume (by decide) hname, numbersOf_consume (by decide) hcomma, hcons]
    exact numbersOf_cons_number tokens₄ hkind
  split at h
  · obtain ⟨⟨operands, tokens₂⟩, hoperands, h⟩ := bind_eq_ok.mp h
    cases h
    exact parseRest_numbers hoperands
  split at h
  · obtain ⟨⟨operands, tokens₂⟩, hoperands, h⟩ := bind_eq_ok.mp h
    cases h
    exact parseRest_numbers hoperands
  split at h
  · obtain ⟨⟨path, tokens₂⟩, hpath, h⟩ := bind_eq_ok.mp h
    cases h
    exact numbersOf_consume (by decide) hpath
  · cases h

theorem parseInstruction_numbers {stmt : InstructionStmt} {tokens rest : List Token}
    (h : parseInstruction tokens = .ok (stmt, rest)) :
    numbersOf tokens = operandNumbers stmt.operands ++ numbersOf rest := by
  obtain ⟨⟨mnemonic, tokens₁⟩, hmnemonic, h⟩ := bind_eq_ok.mp h
  obtain ⟨⟨operands, tokens₂⟩, hoperands, h⟩ := bind_eq_ok.mp h
  cases h
  exact (numbersOf_consume (by decide) hmnemonic).trans (parseRest_numbers hoperands)

theorem parseLabels_numbers (tokens : List Token) :
    (parseLabels tokens).1.flatMap Statement.numbers = [] ∧
      numbersOf tokens = numbersOf (parseLabels tokens).2 := by
  induction tokens using parseLabels.induct with
  | case1 name colon tokens h hnewline =>
      rw [parseLabels, if_pos h, if_pos hnewline, numbersOf_cons_other _ (by rw [h.1]; decide),
        numbersOf_cons_other _ (by rw [h.2]; decide)]
      exact ⟨rfl, rfl⟩
  | case2 name colon tokens h hnewline labels rest hparse ih =>
      rw [parseLabels, if_pos h, if_neg hnewline, numbersOf_cons_other _ (by rw [h.1]; decide),
        numbersOf_cons_other _ (by rw [h.2]; decide)]
      exact ⟨ih.1, ih.2⟩
  | case3 name colon tokens h =>
      rw [parseLabels, if_neg h]
      exact ⟨rfl, rfl⟩
  | case4 tokens h =>
      rw [parseLabels]
      · exact ⟨rfl, rfl⟩
      · exact h

theorem consumeNewlines_numbers (tokens : List Token) :
    numbersOf tokens = numbersOf (consumeNewlines tokens) := by
  induction tokens with
  | nil => rfl
  | cons token tokens ih =>
      unfold consumeNewlines
      split
      · rename_i hkind
        rw [numbersOf_cons_other _ (by rw [hkind]; decide), ih]
      · rfl

theorem parseEndOfLine_numbers {tokens rest : List Token} (h : parseEndOfLine tokens = .ok rest) :
    numbersOf tokens = numbersOf rest := by
  unfold parseEndOfLine at h
  split at h
  · rename_i hnewline
    cases h
    exact (numbersOf_tail (by decide) hnewline).symm
  split at h
  · cases h
    rfl
  · cases h

theorem parseLine_numbers {stmts : List Statement} {tokens rest : List Token}
    (h : parseLine tokens = .ok (stmts, rest)) :
    numbersOf tokens = stmts.flatMap Statement.numbers ++ numbersOf rest := by
  obtain ⟨hlabels, htokens⟩ := parseLabels_numbers tokens
  unfold parseLine at h
  rcases hparse : parseLabels tokens with ⟨labels, tokens'⟩
  rw [hparse] at h hlabels htokens
  simp only at h hlabels htokens
  rw [htokens]
  split at h
  · rename_i hnewline
    cases h
    rw [hlabels]
    exact (numbersOf_tail (by decide) hnewline).symm
  split at h
  · obtain ⟨⟨stmt, tokens₁⟩, hstmt, h⟩ := bind_eq_ok.mp h
    obtain ⟨tokens₂, hend, h⟩ := bind_eq_ok.mp h
    cases h
    rw [parseDirective_numbers hstmt, parseEndOfLine_numbers hend, List.flatMap_append, hlabels,
      List.flatMap_singleton, List.nil_append]
  split at h
  · obtain ⟨⟨stmt, tokens₁⟩, hstmt, h⟩ := bind_eq_ok.mp h
    obtain ⟨tokens₂, hend, h⟩ := bind_eq_ok.mp h
    cases h
    rw [parseInstruction_numbers hstmt, parseEndOfLine_numbers hend, List.flatMap_append, hlabels,
      List.flatMap_singleton, List.nil_append]
    rfl
  split at h
  · cases h
  · cases h
    rw [hlabels]
    exact consumeNewlines_numbers tokens'

/-- The statements take the numbers of the literals one after the other. -/
theorem parseFrom_numbers {tokens : List Token} {statements : List Statement}
    (h : parseFrom tokens = .ok statements) :
    ∃ others, numbersOf tokens = statements.flatMap Statement.numbers ++ others := by
  induction hn : tokens.length using Nat.strong_induction_on generalizing tokens statements with
  | _ n ih =>
      rw [parseFrom_eq] at h
      split at h
      · cases h
        exact ⟨_, rfl⟩
      · obtain ⟨⟨stmts, rest⟩, hline, h⟩ := bind_eq_ok.mp h
        have hlt := (parseLine_lt hline).trans_le (length_consumeNewlines tokens)
        cases hrest : parseFrom rest with
        | error e =>
            rw [hrest] at h
            cases h
        | ok more =>
            rw [hrest] at h
            cases h
            obtain ⟨others, hothers⟩ := ih _ (by omega) hrest rfl
            refine ⟨others, ?_⟩
            rw [consumeNewlines_numbers, parseLine_numbers hline, hothers, List.flatMap_append,
              List.append_assoc]

/-! ## Large literals -/

/-- A literal of the source means a number of more than 32 bits. -/
def HasLargeLiteral (source filename : Text) : Prop :=
  ∃ tokens, lex source filename = .ok tokens ∧
    ∃ t ∈ tokens, t.kind = .number ∧ ∃ n, LiteralValue t.text n ∧ 2 ^ 32 ≤ n

theorem toNat_of_literal {text : Text} {v : BitVec 32} {span : Span}
    (h : parseNumberLiteral text span = .ok v) :
    LiteralValue text v.toNat ↔ ∀ n, LiteralValue text n → n < 2 ^ 32 := by
  rcases parseNumberLiteral_eq_ok.mp h with ⟨m, hm, rfl⟩
  rw [BitVec.toNat_ofNat]
  constructor
  · intro hcut n hn
    rw [hn.unique hcut]
    exact Nat.mod_lt _ (by decide)
  · intro hsmall
    rw [Nat.mod_eq_of_lt (hsmall m hm)]
    exact hm

/-- Without a large literal, every token of a literal has the number that its text means. -/
theorem literalValue_of_not_hasLargeLiteral {source filename : Text} {tokens : List Token}
    (hsmall : ¬HasLargeLiteral source filename) (hlex : lex source filename = .ok tokens)
    {t : Token} (ht : t ∈ tokens) (hkind : t.kind = .number) :
    ∃ v, t.number = some v ∧ LiteralValue t.text v.toNat := by
  obtain ⟨v, hv, hparse⟩ := lexFrom_number hlex ht hkind
  refine ⟨v, hv, (toNat_of_literal hparse).mpr fun n hn => ?_⟩
  by_contra hlarge
  exact hsmall ⟨tokens, hlex, t, ht, hkind, n, hn, Nat.not_lt.mp hlarge⟩

end Irata2.Assembler
