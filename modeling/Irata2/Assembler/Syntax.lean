import Irata2.Assembler.Assemble

/-!
# The syntax of operands

How an operand is written, the addressing modes that the documentation gives for it, and the mode
that the assembler selects.
-/

namespace Irata2.Assembler

open Library

/-! ## Forms -/

/-- The marks around the expression of an operand. -/
inductive Form
  | plain
  | immediate
  | indirect (inner : Form) (x : Bool)
  deriving DecidableEq, Repr

def Form.isIndirect : Form → Bool
  | .indirect _ _ => true
  | _ => false

/-- Some pair of parentheses has an index register in it. -/
def Form.hasX : Form → Bool
  | .indirect inner x => x || inner.hasX
  | _ => false

/-- A comma and an index register, or neither. -/
inductive IndexTokens : List Token → IndexRegister → Prop
  | none : IndexTokens [] .none
  | register {comma reg : Token} (hcomma : comma.kind = .comma) (hreg : reg.kind = .identifier)
      (hr : indexRegister reg.text ≠ .none) : IndexTokens [comma, reg] (indexRegister reg.text)

/-- The tokens of an operand, without what stands behind its parentheses. -/
inductive Spells : List Token → Form → Prop
  | number {token : Token} (h : token.kind = .number) :
      Spells [token] (if token.text.head? = some '#' then .immediate else .plain)
  | name {token : Token} (h : token.kind = .identifier) : Spells [token] .plain
  | hash {mark token : Token} (hmark : mark.kind = .hash) (h : token.kind = .identifier) :
      Spells [mark, token] .immediate
  | indirect {opening closing : Token} {inside index : List Token} {inner : Form}
      {r : IndexRegister} (hopening : opening.kind = .leftParen) (hinside : Spells inside inner)
      (hinner : inner ≠ .immediate) (hindex : IndexTokens index r) (hr : r ≠ .y)
      (hclosing : closing.kind = .rightParen) :
      Spells (opening :: (inside ++ (index ++ [closing]))) (.indirect inner (r == .x))

/-- What an instruction line says: its mnemonic, and its operand with the index register behind. -/
structure Line where
  mnemonic : Text
  operand : Option (Form × IndexRegister)
  deriving DecidableEq, Repr

/-- The tokens of a line, in front of what is left. -/
inductive Line.Spelled : Line → List Token → List Token → Prop
  | bare {name : Token} {rest : List Token} (hname : name.kind = .identifier) :
      Line.Spelled ⟨name.text, none⟩ (name :: rest) rest
  | operand {name : Token} {operand index rest : List Token} {form : Form} {r : IndexRegister}
      (hname : name.kind = .identifier) (hoperand : Spells operand form)
      (hindex : IndexTokens index r) :
      Line.Spelled ⟨name.text, some (form, r)⟩ (name :: (operand ++ (index ++ rest))) rest

/-- The addressing modes that are documented for what a line says. -/
def Line.documentedModes (line : Line) : List Isa.AddressingMode :=
  match line.operand with
  | none => [.imp]
  | some (form, r) =>
      if isRelativeMnemonic line.mnemonic then
        if form = .plain ∧ r = .none then [.rel] else []
      else
        match form, r with
        | .plain, .none => [.zp, .abs]
        | .plain, .x => [.zpx, .abx]
        | .plain, .y => [.zpy, .aby]
        | .immediate, .none => [.imm]
        | .indirect .plain true, .none => [.izx]
        | .indirect .plain false, .y => [.izy]
        | .indirect .plain false, .none => [.ind]
        | _, _ => []

/-- The marks of the operand fit together: the operand of a branch has none, an immediate one has no
index, and there is at most one pair of parentheses, with an index either in it or, if it is Y,
behind it. -/
def Line.WellFormed (line : Line) : Prop :=
  ∀ form r, line.operand = some (form, r) →
    (isRelativeMnemonic line.mnemonic = true → form = .plain ∧ r = .none) ∧
    (isRelativeMnemonic line.mnemonic = false →
      (form = .immediate → r = .none) ∧
      ∀ inner x, form = .indirect inner x →
        inner = .plain ∧ r ≠ .x ∧ (x = true → r = .none))

/-! ## A line can be read in one way -/

theorem IndexTokens.unique {index index' : List Token} {r r' : IndexRegister}
    (h : IndexTokens index r) (h' : IndexTokens index' r') (heq : index = index') : r = r' := by
  subst heq
  cases h with
  | none =>
      cases h'
      rfl
  | register =>
      cases h'
      rfl

theorem Spells.unique {ts ts' rest rest' : List Token} {form form' : Form} (h : Spells ts form)
    (h' : Spells ts' form') (heq : ts ++ rest = ts' ++ rest') : ts = ts' ∧ form = form' := by
  induction h generalizing ts' rest rest' form' with
  | number hkind =>
      cases h' with
      | number =>
          have hhead := (List.cons.inj heq).1
          subst hhead
          exact ⟨rfl, rfl⟩
      | name hkind' => rw [(List.cons.inj heq).1, hkind'] at hkind; cases hkind
      | hash hmark => rw [(List.cons.inj heq).1, hmark] at hkind; cases hkind
      | indirect hopening => rw [(List.cons.inj heq).1, hopening] at hkind; cases hkind
  | name hkind =>
      cases h' with
      | number hkind' => rw [(List.cons.inj heq).1, hkind'] at hkind; cases hkind
      | name =>
          have hhead := (List.cons.inj heq).1
          subst hhead
          exact ⟨rfl, rfl⟩
      | hash hmark => rw [(List.cons.inj heq).1, hmark] at hkind; cases hkind
      | indirect hopening => rw [(List.cons.inj heq).1, hopening] at hkind; cases hkind
  | hash hkind =>
      cases h' with
      | number hkind' => rw [(List.cons.inj heq).1, hkind'] at hkind; cases hkind
      | name hkind' => rw [(List.cons.inj heq).1, hkind'] at hkind; cases hkind
      | hash =>
          rcases List.cons.inj heq with ⟨hmark, htail⟩
          have hname := (List.cons.inj htail).1
          subst hmark hname
          exact ⟨rfl, rfl⟩
      | indirect hopening => rw [(List.cons.inj heq).1, hopening] at hkind; cases hkind
  | @indirect opening closing inside index inner r hkind hinside hinner hindex hr hclosing ih =>
      cases h' with
      | number hkind' => rw [(List.cons.inj heq).1, hkind'] at hkind; cases hkind
      | name hkind' => rw [(List.cons.inj heq).1, hkind'] at hkind; cases hkind
      | hash hmark => rw [(List.cons.inj heq).1, hmark] at hkind; cases hkind
      | @indirect opening' closing' inside' index' inner' r' hopening hinside' _ hindex' hr'
          hclosing' =>
          rcases List.cons.inj heq with ⟨hopen, htail⟩
          have htail : inside ++ (index ++ [closing]) ++ rest =
              inside' ++ (index' ++ [closing']) ++ rest' := htail
          rw [List.append_assoc, List.append_assoc, List.append_assoc, List.append_assoc] at htail
          rcases ih hinside' htail with ⟨hin, hform⟩
          subst hopen hin hform
          have hback := List.append_cancel_left htail
          -- a comma is not a closing parenthesis
          cases hindex with
          | none =>
              cases hindex' with
              | none =>
                  have hclose := (List.cons.inj hback).1
                  subst hclose
                  exact ⟨rfl, rfl⟩
              | register hcomma =>
                  rw [(List.cons.inj hback).1, hcomma] at hclosing
                  cases hclosing
          | register hcomma =>
              cases hindex' with
              | none =>
                  rw [(List.cons.inj hback).1, hclosing'] at hcomma
                  cases hcomma
              | register =>
                  rcases List.cons.inj hback with ⟨h₁, hback⟩
                  rcases List.cons.inj hback with ⟨h₂, hback⟩
                  have h₃ := (List.cons.inj hback).1
                  subst h₁ h₂ h₃
                  exact ⟨rfl, rfl⟩

theorem Spells.ne_nil {ts : List Token} {form : Form} (h : Spells ts form) : ts ≠ [] := by
  cases h <;> exact List.cons_ne_nil _ _

theorem Line.Spelled.unique {line line' : Line} {tokens rest : List Token}
    (h : line.Spelled tokens rest) (h' : line'.Spelled tokens rest) : line' = line := by
  have hlonger : ∀ {operand index : List Token} {form : Form}, Spells operand form →
      rest ≠ operand ++ (index ++ rest) := by
    intro operand index form hspells heq
    have hlength := congrArg List.length heq
    have hpos := List.length_pos_iff.mpr hspells.ne_nil
    rw [List.length_append, List.length_append] at hlength
    omega
  cases h with
  | bare =>
      generalize htokens : _ :: rest = tokens at h'
      cases h' with
      | bare =>
          rw [(List.cons.inj htokens).1]
      | operand _ hspells => exact absurd (List.cons.inj htokens).2 (hlonger hspells)
  | @operand name operand index rest form r hname hspells hindex =>
      generalize htokens : name :: (operand ++ (index ++ rest)) = tokens at h'
      cases h' with
      | bare => exact absurd (List.cons.inj htokens).2.symm (hlonger hspells)
      | operand _ hspells' hindex' =>
          rcases List.cons.inj htokens with ⟨hname, htail⟩
          rcases hspells.unique hspells' htail with ⟨hoperand, hform⟩
          subst hname hoperand hform
          have hback := List.append_cancel_right (List.append_cancel_left htail)
          rw [hindex.unique hindex' hback]

/-! ## What the parser reads -/

/-- The marks of an operand, as the parser keeps them. -/
structure Marks (operand : Operand) (form : Form) (r : IndexRegister) : Prop where
  immediate : operand.immediate = true ↔ form = .immediate
  indirect : operand.indirect = form.isIndirect
  indexRegister : operand.indexRegister =
    if r = .none then (if form.hasX then .x else .none) else r

theorem indexTokens_of_inner {operand operand' : Operand} {tokens rest : List Token}
    (h : parseInnerIndex operand tokens = .ok (operand', rest)) :
    ∃ index r, tokens = index ++ rest ∧ IndexTokens index r ∧ r ≠ .y ∧
      operand' = if r = .x then { operand with indexRegister := .x } else operand := by
  unfold parseInnerIndex at h
  by_cases hcomma : check tokens .comma = true
  · rw [if_pos hcomma] at h
    rcases bind_eq_ok.mp h with ⟨⟨reg, tokens'⟩, hreg, h⟩
    rcases seq_eq_ok.mp h with ⟨hx, h⟩
    have hx := Decidable.not_not.mp (throwIf_eq_ok.mp hx)
    cases h
    rcases consume_eq_ok hreg with ⟨htail, hkind⟩
    cases tokens with
    | nil => cases htail
    | cons comma more =>
        have hindex := @IndexTokens.register comma reg (beq_iff_eq.mp hcomma) hkind
          (by rw [hx]; decide)
        rw [hx] at hindex
        refine ⟨[comma, reg], .x, ?_, hindex, by decide, rfl⟩
        exact congrArg (comma :: ·) htail
  · rw [if_neg hcomma] at h
    cases h
    exact ⟨[], .none, rfl, .none, by decide, rfl⟩

/-- The parser accepts what is spelled, and keeps its marks: the outermost index register of those
in parentheses, which is X. -/
theorem parseOperand_spells {operand : Operand} {tokens rest : List Token}
    (h : parseOperand tokens = .ok (operand, rest)) :
    ∃ ts form, tokens = ts ++ rest ∧ Spells ts form ∧ Marks operand form .none := by
  induction tokens generalizing operand rest with
  | nil => cases h
  | cons token tokens ih =>
      unfold parseOperand at h
      split at h
      · rename_i hmark
        rcases bind_eq_ok.mp h with ⟨⟨name, tokens'⟩, hname, h⟩
        cases h
        rcases consume_eq_ok hname with ⟨htail, hkind⟩
        refine ⟨[token, name], .immediate, congrArg (token :: ·) htail, .hash hmark hkind, ?_⟩
        exact ⟨⟨fun _ => rfl, fun _ => rfl⟩, rfl, rfl⟩
      · rename_i hopening
        rcases bind_eq_ok.mp h with ⟨⟨inner, tokens₁⟩, hinner, h⟩
        rcases seq_eq_ok.mp h with ⟨hplain, h⟩
        rcases bind_eq_ok.mp h with ⟨⟨indexed, tokens₂⟩, hindex, h⟩
        rcases bind_eq_ok.mp h with ⟨⟨closing, tokens₃⟩, hclosing, h⟩
        cases h
        -- the operand in the parentheses is read by the same function
        rcases ih hinner with ⟨inside, form, hinside, hspells, hmarks⟩
        rcases indexTokens_of_inner hindex with ⟨index, r, hback, hregister, hy, hoperand⟩
        rcases consume_eq_ok hclosing with ⟨hclose, hkind⟩
        -- an immediate in parentheses has been refused
        have hform : form ≠ .immediate := fun heq =>
          throwIf_eq_ok.mp hplain (hmarks.immediate.mpr heq)
        refine ⟨_, _, ?_, .indirect hopening hspells hform hregister hy hkind, ?_⟩
        · have hinside : tokens = inside ++ tokens₁ := hinside
          have hback : tokens₁ = index ++ tokens₂ := hback
          have hclose : tokens₂ = closing :: rest := hclose
          rw [hinside, hback, hclose]
          simp only [List.cons_append, List.append_assoc, List.nil_append]
        · have hnot : inner.immediate ≠ true := fun himm => hform (hmarks.immediate.mp himm)
          have hinnerIndex := hmarks.indexRegister
          rw [if_pos rfl] at hinnerIndex
          cases r with
          | none =>
              rw [if_neg (by decide)] at hoperand
              rw [hoperand]
              exact ⟨⟨fun h => absurd h hnot, fun h => (by cases h)⟩, rfl, hinnerIndex⟩
          | x =>
              rw [if_pos rfl] at hoperand
              rw [hoperand]
              exact ⟨⟨fun h => absurd h hnot, fun h => (by cases h)⟩, rfl, rfl⟩
          | y => exact absurd rfl hy
      · rename_i hnumber
        cases h
        refine ⟨[token], _, rfl, .number hnumber, ?_, ?_, ?_⟩
        · show (token.text.head? == some '#') = true ↔ _
          rw [beq_iff_eq]
          split
          · rename_i hhash
            exact ⟨fun _ => rfl, fun _ => hhash⟩
          · rename_i hhash
            exact ⟨fun h => absurd h hhash, fun h => (by cases h)⟩
        · split
          · rfl
          · rfl
        · have hx : (if token.text.head? = some '#' then Form.immediate else .plain).hasX = false := by
            split
            · rfl
            · rfl
          rw [hx]
          rfl
      · rename_i hname
        cases h
        refine ⟨[token], .plain, rfl, .name hname, ⟨fun h => (by cases h), fun h => (by cases h)⟩,
          rfl, rfl⟩
      · cases h

theorem indexTokens_of_check {tokens : List Token} (hcomma : check tokens .comma = true)
    (hname : check tokens.tail .identifier = true)
    (hr : indexRegister (peek tokens.tail).text ≠ .none) :
    ∃ index, tokens = index ++ tokens.tail.tail ∧
      IndexTokens index (indexRegister (peek tokens.tail).text) := by
  match tokens with
  | [] => cases hcomma
  | [comma] => cases hname
  | comma :: reg :: rest =>
      exact ⟨[comma, reg], rfl, .register (beq_iff_eq.mp hcomma) (beq_iff_eq.mp hname) hr⟩

theorem parseOperands_ne_nil {indexed : Bool} {operands : List Operand} {tokens rest : List Token}
    (h : parseOperands indexed tokens = .ok (operands, rest)) : operands ≠ [] := by
  rw [parseOperands_eq] at h
  rcases bind_eq_ok.mp h with ⟨⟨operand, tokens'⟩, -, h⟩
  simp only at h
  split at h
  · split at h
    · cases h
      exact List.cons_ne_nil _ _
    · cases hrest : parseOperands indexed tokens'.tail with
      | error e =>
          rw [hrest] at h
          cases h
      | ok p =>
          rw [hrest] at h
          cases h
          exact List.cons_ne_nil _ _
  · cases h
    exact List.cons_ne_nil _ _

/-- A list of one operand, with what stands behind it. -/
theorem parseOperands_spells {operand : Operand} {tokens rest : List Token}
    (h : parseOperands true tokens = .ok ([operand], rest)) :
    ∃ ts index form r, tokens = ts ++ (index ++ rest) ∧ Spells ts form ∧ IndexTokens index r ∧
      Marks operand form r := by
  rw [parseOperands_eq] at h
  rcases bind_eq_ok.mp h with ⟨⟨first, tokens'⟩, hfirst, h⟩
  rcases parseOperand_spells hfirst with ⟨ts, form, hts, hspells, hmarks⟩
  simp only at h
  split at h
  · rename_i hcomma
    split at h
    · rename_i hindex
      rcases hindex with ⟨-, hname, hr⟩
      cases h
      rcases indexTokens_of_check hcomma hname hr with ⟨index, hback, hregister⟩
      refine ⟨ts, index, form, _, by rw [← hback]; exact hts, hspells, hregister,
        hmarks.immediate, hmarks.indirect, ?_⟩
      exact (if_neg hr).symm
    · -- a second operand follows
      cases hrest : parseOperands true tokens'.tail with
      | error e =>
          rw [hrest] at h
          cases h
      | ok p =>
          rw [hrest] at h
          have hnil : p.1 = [] := (List.cons.inj (congrArg Prod.fst (Except.ok.inj h))).2
          exact absurd hnil (parseOperands_ne_nil hrest)
  · cases h
    exact ⟨ts, [], form, .none, hts, hspells, .none, hmarks⟩

/-! ## What the assembler selects -/

/-- The mode of the selected instruction is one of the modes to try. -/
theorem mode_of_selectInstruction {stmt : InstructionStmt} {info : Isa.InstructionInfo}
    (h : selectInstruction stmt = .ok info) :
    ∃ modes, candidates stmt = .ok modes ∧ info.addressingMode ∈ modes := by
  unfold selectInstruction at h
  rcases bind_eq_ok.mp h with ⟨modes, hmodes, h⟩
  refine ⟨modes, hmodes, ?_⟩
  split at h
  · rename_i found hfound
    cases h
    rcases List.exists_of_findSome?_eq_some hfound with ⟨mode, hmem, hfind⟩
    unfold findInstructionByMnemonicAndMode at hfind
    have hmode := List.find?_some hfind
    simp only [decide_eq_true_eq] at hmode
    rw [hmode.2]
    exact hmem
  · cases h

/-- What the candidates are, from the marks of the operand. -/
theorem candidates_of_marks {stmt : InstructionStmt} {operand : Operand} {form : Form}
    {r : IndexRegister} {modes : List Isa.AddressingMode} (hoperands : stmt.operands = [operand])
    (hmarks : Marks operand form r) (h : candidates stmt = .ok modes) :
    (isRelativeMnemonic stmt.mnemonic = true ∧ form ≠ .immediate ∧ modes = [.rel]) ∨
    (isRelativeMnemonic stmt.mnemonic = false ∧ form = .plain ∧
      ∀ mode ∈ modes, mode ∈ (⟨stmt.mnemonic, some (form, r)⟩ : Line).documentedModes) ∨
    (isRelativeMnemonic stmt.mnemonic = false ∧ form = .immediate ∧ modes = [.imm]) ∨
    (isRelativeMnemonic stmt.mnemonic = false ∧ form.isIndirect = true ∧
      modes = match operand.indexRegister with
        | .x => [.izx]
        | .y => [.izy]
        | .none => [.ind]) := by
  unfold candidates at h
  simp only [hoperands] at h
  cases hrelative : isRelativeMnemonic stmt.mnemonic with
  | true =>
      left
      rw [if_pos hrelative] at h
      by_cases himmediate : operand.immediate = true
      · rw [if_pos himmediate] at h
        cases h
      · rw [if_neg himmediate] at h
        cases h
        exact ⟨rfl, fun hform => himmediate (hmarks.immediate.mpr hform), rfl⟩
  | false =>
      right
      rw [if_neg (by rw [hrelative]; decide)] at h
      cases form with
      | indirect inner x =>
          right; right
          have hindirect : operand.indirect = true := hmarks.indirect
          rw [if_pos hindirect] at h
          refine ⟨rfl, rfl, ?_⟩
          cases hr : operand.indexRegister <;> simp only [hr] at h ⊢ <;> exact (Except.ok.inj h).symm
      | immediate =>
          right; left
          have hindirect : operand.indirect = false := hmarks.indirect
          have himmediate : operand.immediate = true := hmarks.immediate.mpr rfl
          rw [if_neg (by rw [hindirect]; decide), if_pos himmediate] at h
          cases h
          exact ⟨rfl, rfl, rfl⟩
      | plain =>
          left
          have hindirect : operand.indirect = false := hmarks.indirect
          have himmediate : ¬operand.immediate = true := fun h => (by cases hmarks.immediate.mp h)
          have hindex : operand.indexRegister = r := by
            rw [hmarks.indexRegister]
            cases r <;> rfl
          rw [if_neg (by rw [hindirect]; decide), if_neg himmediate] at h
          refine ⟨rfl, rfl, fun mode hmode => ?_⟩
          unfold Line.documentedModes
          simp only [hrelative]
          rw [if_neg (by decide)]
          -- the sizes of the operand only choose among the documented modes
          cases r with
          | x =>
              simp only [hindex] at h
              cases h
              split at hmode
              · exact hmode
              · exact List.mem_cons_of_mem _ hmode
          | y =>
              simp only [hindex] at h
              cases h
              split at hmode
              · exact hmode
              · exact List.mem_cons_of_mem _ hmode
          | none =>
              simp only [hindex] at h
              split at h
              · cases h
                split at hmode
                · exact hmode
                · exact List.mem_cons_of_mem _ hmode
              · cases h
                rcases List.mem_cons.mp hmode with rfl | hmode
                · exact List.mem_cons_of_mem _ List.mem_cons_self
                · rw [List.mem_singleton.mp hmode]
                  exact List.mem_cons_self

/-- Of the modes for parentheses, the documented one is selected just when the marks fit. -/
theorem documented_indirect {line : Line} {inner : Form} {x : Bool} {r : IndexRegister}
    (hline : line.operand = some (.indirect inner x, r))
    (hrelative : isRelativeMnemonic line.mnemonic = false) {mode : Isa.AddressingMode}
    (hmode : mode = match (if r = .none then
        (if Form.hasX (.indirect inner x) then IndexRegister.x else .none) else r) with
      | .x => .izx
      | .y => .izy
      | .none => .ind) :
    mode ∈ line.documentedModes ↔ inner = .plain ∧ r ≠ .x ∧ (x = true → r = .none) := by
  unfold Line.documentedModes
  simp only [hline]
  rw [if_neg (by rw [hrelative]; decide), hmode]
  cases inner with
  | plain => cases x <;> cases r <;> decide
  | immediate => cases x <;> cases r <;> simp
  | indirect inner y => cases x <;> cases r <;> simp

/-- The selected mode is documented just when the marks of the operand fit together. -/
theorem documented_of_marks {stmt : InstructionStmt} {operand : Operand} {form : Form}
    {r : IndexRegister} {modes : List Isa.AddressingMode} {mode : Isa.AddressingMode}
    (hmarks : Marks operand form r) (hoperands : stmt.operands = [operand])
    (hmodes : candidates stmt = .ok modes) (hmem : mode ∈ modes) :
    mode ∈ (⟨stmt.mnemonic, some (form, r)⟩ : Line).documentedModes ↔
      (⟨stmt.mnemonic, some (form, r)⟩ : Line).WellFormed := by
  have hwell : (⟨stmt.mnemonic, some (form, r)⟩ : Line).WellFormed ↔
      (isRelativeMnemonic stmt.mnemonic = true → form = .plain ∧ r = .none) ∧
      (isRelativeMnemonic stmt.mnemonic = false →
        (form = .immediate → r = .none) ∧
        ∀ inner x, form = .indirect inner x →
          inner = .plain ∧ r ≠ .x ∧ (x = true → r = .none)) := by
    constructor
    · exact fun h => h form r rfl
    · intro h form' r' heq
      cases heq
      exact h
  rw [hwell]
  -- a branch, an immediate, an operand without parentheses, one with them
  rcases candidates_of_marks hoperands hmarks hmodes with
    ⟨hrelative, -, rfl⟩ | ⟨hrelative, rfl, hall⟩ | ⟨hrelative, rfl, rfl⟩ | ⟨hrelative, hform, hmode⟩
  · rw [List.mem_singleton.mp hmem, hrelative]
    unfold Line.documentedModes
    simp only [hrelative, if_true]
    by_cases hplain : form = .plain ∧ r = .none
    · rw [if_pos hplain]
      exact ⟨fun _ => ⟨fun _ => hplain, fun h => (by cases h)⟩, fun _ => List.mem_cons_self⟩
    · rw [if_neg hplain]
      exact ⟨fun h => (by cases h), fun h => absurd (h.1 trivial) hplain⟩
  · rw [hrelative]
    exact ⟨fun _ =>
        ⟨fun h => (by cases h), fun _ => ⟨fun h => (by cases h), fun _ _ h => (by cases h)⟩⟩,
      fun _ => hall mode hmem⟩
  · rw [List.mem_singleton.mp hmem, hrelative]
    unfold Line.documentedModes
    simp only [hrelative]
    rw [if_neg (by decide)]
    cases r with
    | none =>
        exact ⟨fun _ => ⟨fun h => (by cases h), fun _ => ⟨fun _ => rfl, fun _ _ h => (by cases h)⟩⟩,
          fun _ => List.mem_cons_self⟩
    | x => exact ⟨fun h => (by cases h), fun h => (by cases (h.2 trivial).1 trivial)⟩
    | y => exact ⟨fun h => (by cases h), fun h => (by cases (h.2 trivial).1 trivial)⟩
  · cases form with
    | plain => cases hform
    | immediate => cases hform
    | indirect inner x =>
        have hone : mode = match (if r = .none then
            (if Form.hasX (.indirect inner x) then IndexRegister.x else .none) else r) with
            | .x => .izx
            | .y => .izy
            | .none => .ind := by
          rw [← hmarks.indexRegister]
          rw [hmode] at hmem
          cases hr : operand.indexRegister <;> rw [hr] at hmem <;> exact List.mem_singleton.mp hmem
        rw [documented_indirect rfl hrelative hone]
        constructor
        · intro h
          refine ⟨fun htrue => ?_, fun _ => ⟨fun hf => (by cases hf), ?_⟩⟩
          · rw [hrelative] at htrue
            cases htrue
          · rintro inner' x' heq
            cases heq
            exact h
        · exact fun h => (h.2 hrelative).2 inner x rfl

/-- A line that the assembler accepts is read in one way, and the selected mode is documented for it
just when its marks fit together. -/
theorem documented_iff {tokens rest : List Token} {stmt : InstructionStmt}
    {info : Isa.InstructionInfo} (hparse : parseInstruction tokens = .ok (stmt, rest))
    (hselect : selectInstruction stmt = .ok info) :
    ∃ line : Line, (∀ line', Line.Spelled line' tokens rest ↔ line' = line) ∧
      (info.addressingMode ∈ line.documentedModes ↔ line.WellFormed) := by
  rcases bind_eq_ok.mp hparse with ⟨⟨name, tokens'⟩, hname, hparse⟩
  rcases bind_eq_ok.mp hparse with ⟨⟨operands, rest'⟩, hoperands, hparse⟩
  cases hparse
  rcases consume_eq_ok hname with ⟨htokens, hkind⟩
  rcases mode_of_selectInstruction hselect with ⟨modes, hmodes, hmem⟩
  subst htokens
  -- a line of tokens has one spelling at most
  have hsuffices : ∀ line : Line, line.Spelled (name :: tokens') rest →
      (info.addressingMode ∈ line.documentedModes ↔ line.WellFormed) →
      ∃ line : Line, (∀ line', Line.Spelled line' (name :: tokens') rest ↔ line' = line) ∧
        (info.addressingMode ∈ line.documentedModes ↔ line.WellFormed) := by
    intro line hspelled hiff
    refine ⟨line, fun line' => ⟨fun h => hspelled.unique h, ?_⟩, hiff⟩
    rintro rfl
    exact hspelled
  have hoperands : parseRest true tokens' = .ok (operands, rest) := hoperands
  unfold parseRest at hoperands
  match operands with
  | [] =>
      split at hoperands
      · cases hoperands
        refine hsuffices ⟨name.text, none⟩ (.bare hkind) ?_
        have hmodes : Except.ok [.imp] = Except.ok modes := hmodes
        cases hmodes
        exact ⟨fun _ form r h => (by cases h), fun _ => hmem⟩
      · exact absurd rfl (parseOperands_ne_nil hoperands)
  | [operand] =>
      split at hoperands
      · cases hoperands
      · rcases parseOperands_spells hoperands with
          ⟨ts, index, form, r, htokens, hspells, hindex, hmarks⟩
        refine hsuffices ⟨name.text, some (form, r)⟩ ?_ ?_
        · rw [htokens]
          exact .operand hkind hspells hindex
        · exact documented_of_marks hmarks rfl hmodes hmem
  | _ :: _ :: _ => cases hmodes

/-- A mode other than the documented one: both index registers are written, and X is dropped. -/
def shadowedSource : Text := "lda ($10,x),y\n".toList

def shadowedTokens : List Token :=
  [{ kind := .identifier, text := "lda".toList, span := ⟨[], 1, 1, 3⟩ },
   { kind := .leftParen, span := ⟨[], 1, 6, 1⟩ },
   { kind := .number, text := "$10".toList, span := ⟨[], 1, 6, 3⟩, number := some 0x10 },
   { kind := .comma, span := ⟨[], 1, 10, 1⟩ },
   { kind := .identifier, text := ['x'], span := ⟨[], 1, 10, 1⟩ },
   { kind := .rightParen, span := ⟨[], 1, 12, 1⟩ },
   { kind := .comma, span := ⟨[], 1, 13, 1⟩ },
   { kind := .identifier, text := ['y'], span := ⟨[], 1, 13, 1⟩ },
   { kind := .newline, text := ['\n'], span := ⟨[], 2, 1, 1⟩ },
   { kind := .endOfFile, span := ⟨[], 2, 1, 0⟩ }]

def shadowedLine : Line := ⟨"lda".toList, some (.indirect .plain true, .y)⟩

/-- What the parser and the selection make of the line. -/
def shadowedSelection : Except AssemblerError (Isa.AddressingMode × List Token) := do
  let (stmt, rest) ← parseInstruction shadowedTokens
  let info ← selectInstruction stmt
  pure (info.addressingMode, rest)

theorem spelled_shadowed : shadowedLine.Spelled shadowedTokens (shadowedTokens.drop 8) := by
  have hx := @IndexTokens.register { kind := .comma, span := ⟨[], 1, 10, 1⟩ }
    { kind := .identifier, text := ['x'], span := ⟨[], 1, 10, 1⟩ } rfl rfl (by decide)
  have hy := @IndexTokens.register { kind := .comma, span := ⟨[], 1, 13, 1⟩ }
    { kind := .identifier, text := ['y'], span := ⟨[], 1, 13, 1⟩ } rfl rfl (by decide)
  have hnumber := @Spells.number
    { kind := .number, text := "$10".toList, span := ⟨[], 1, 6, 3⟩, number := some 0x10 } rfl
  have hindirect := @Spells.indirect { kind := .leftParen, span := ⟨[], 1, 6, 1⟩ }
    { kind := .rightParen, span := ⟨[], 1, 12, 1⟩ } _ _ _ _ rfl hnumber (by decide) hx (by decide)
    rfl
  exact @Line.Spelled.operand
    { kind := .identifier, text := "lda".toList, span := ⟨[], 1, 1, 3⟩ } _ _ _ _ _ rfl hindirect hy

theorem not_documented_shadowed :
    lex shadowedSource [] = .ok shadowedTokens ∧
      shadowedSelection = .ok (.izy, shadowedTokens.drop 8) ∧
      shadowedLine.Spelled shadowedTokens (shadowedTokens.drop 8) ∧
      Isa.AddressingMode.izy ∉ shadowedLine.documentedModes := by
  exact ⟨by decide +kernel, by decide +kernel, spelled_shadowed, by decide⟩

/-- A line whose marks fit. -/
def indexedSource : Text := "lda $10,x\n".toList

def indexedTokens : List Token :=
  [{ kind := .identifier, text := "lda".toList, span := ⟨[], 1, 1, 3⟩ },
   { kind := .number, text := "$10".toList, span := ⟨[], 1, 5, 3⟩, number := some 0x10 },
   { kind := .comma, span := ⟨[], 1, 9, 1⟩ },
   { kind := .identifier, text := ['x'], span := ⟨[], 1, 9, 1⟩ },
   { kind := .newline, text := ['\n'], span := ⟨[], 2, 1, 1⟩ },
   { kind := .endOfFile, span := ⟨[], 2, 1, 0⟩ }]

def indexedStmt : InstructionStmt :=
  { mnemonic := "lda".toList,
    operands := [{ number := 0x10, indexRegister := .x, span := ⟨[], 1, 5, 3⟩ }],
    span := ⟨[], 1, 1, 3⟩ }

def indexedLine : Line := ⟨"lda".toList, some (.plain, .x)⟩

theorem spelled_indexed : indexedLine.Spelled indexedTokens (indexedTokens.drop 4) := by
  have hx := @IndexTokens.register { kind := .comma, span := ⟨[], 1, 9, 1⟩ }
    { kind := .identifier, text := ['x'], span := ⟨[], 1, 9, 1⟩ } rfl rfl (by decide)
  have hnumber := @Spells.number
    { kind := .number, text := "$10".toList, span := ⟨[], 1, 5, 3⟩, number := some 0x10 } rfl
  exact @Line.Spelled.operand
    { kind := .identifier, text := "lda".toList, span := ⟨[], 1, 1, 3⟩ } _ _ _ _ _ rfl hnumber hx

theorem documented_indexed :
    ∃ info, lex indexedSource [] = .ok indexedTokens ∧ selectInstruction indexedStmt = .ok info ∧
      (∀ line', Line.Spelled line' indexedTokens (indexedTokens.drop 4) ↔ line' = indexedLine) ∧
      (info.addressingMode ∈ indexedLine.documentedModes ↔ indexedLine.WellFormed) := by
  have hlex : lex indexedSource [] = .ok indexedTokens := by decide +kernel
  have hparse : parseInstruction indexedTokens = .ok (indexedStmt, indexedTokens.drop 4) := by
    decide +kernel
  cases hselect : selectInstruction indexedStmt with
  | error e =>
      have hok : (selectInstruction indexedStmt).toOption.isSome = true := by decide +kernel
      rw [hselect] at hok
      cases hok
  | ok info =>
      obtain ⟨line, hunique, hiff⟩ := documented_iff hparse hselect
      cases (hunique indexedLine).mp spelled_indexed
      exact ⟨info, hlex, rfl, hunique, hiff⟩

end Irata2.Assembler
