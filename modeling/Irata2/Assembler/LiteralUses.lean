import Irata2.Assembler.Acceptance
import Irata2.Assembler.Literals
import Irata2.Assembler.Syntax

/-!
# What becomes of the literals

The literals of a source end up as bytes, operands, addresses and constants.  The passes of the
assembler check the range of each of them, but the lexer has cut the number off before.
-/

namespace Irata2.Assembler

open Library

/-! ## The way of the first pass -/

/-- A statement, with the cursor in front of it and the one behind it. -/
structure Visit where
  cursor : Nat
  stmt : Statement
  next : Nat

/-- The statements that the first pass goes through. -/
def visits (options : AssemblerOptions) : FirstPassResult → List Statement → List Visit
  | _, [] => []
  | pass, stmt :: rest =>
      match pass.add options stmt with
      | .ok pass' => ⟨pass.cursor, stmt, pass'.cursor⟩ :: visits options pass' rest
      | .error _ => []

/-- The statements of a program that the first pass goes through from its start. -/
def Program.visits (program : Program) (options : AssemblerOptions) : List Visit :=
  Assembler.visits options { maxAddress := options.origin, cursor := options.origin.toNat }
    program.statements

theorem visits_cons {options : AssemblerOptions} {pass pass' : FirstPassResult}
    {stmt : Statement} {rest : List Statement} (h : pass.add options stmt = .ok pass') :
    visits options pass (stmt :: rest) =
      ⟨pass.cursor, stmt, pass'.cursor⟩ :: visits options pass' rest := by
  rw [visits, h]

/-- An accepted program is gone through to its end. -/
theorem stmt_visits {options : AssemblerOptions} {statements : List Statement}
    {pass pass' : FirstPassResult}
    (h : statements.foldlM (FirstPassResult.add options) pass = .ok pass') :
    (visits options pass statements).map Visit.stmt = statements := by
  induction statements generalizing pass with
  | nil => rfl
  | cons stmt rest ih =>
      obtain ⟨mid, hmid, hrest⟩ := foldlM_cons_eq_ok.mp h
      rw [visits_cons hmid, List.map_cons, ih hrest]

/-- What the first pass has seen to at a statement. -/
structure Visited (options : AssemblerOptions) (v : Visit) : Prop where
  ranged : Ranged (v.cursor, v.stmt)
  org : ∀ stmt, v.stmt = .directive stmt → stmt.type = .org →
    ∃ operand, stmt.operands = [operand] ∧ operand.kind = .number ∧ v.next = operand.number.toNat

theorem visited_of_add {options : AssemblerOptions} {pass pass' : FirstPassResult}
    {stmt : Statement} (hcursor : pass.cursor < 2 ^ 32) (h : pass.add options stmt = .ok pass') :
    Visited options ⟨pass.cursor, stmt, pass'.cursor⟩ := by
  have hadvances := advances_add hcursor h
  constructor
  · exact
      { address := fun hsome => (hadvances.placed (hadvances.positive hsome)).1
        silent := hadvances.silent }
  · rintro directive rfl htype
    obtain ⟨operand, hoperand, hkind, -, hle⟩ := org_of_add htype h
    refine ⟨operand, hoperand, hkind, ?_⟩
    have hnext : Statement.next pass.cursor (.directive directive) = operand.number.toNat := by
      unfold Statement.next
      simp only [htype, hoperand]
    show pass'.cursor = operand.number.toNat
    rw [hadvances.cursor, hnext]
    exact Nat.mod_eq_of_lt (by omega)

/-- The items are those of the statements at the cursors. -/
theorem items_of_visits {options : AssemblerOptions} {statements : List Statement}
    {pass pass' : FirstPassResult} (hcursor : pass.cursor < 2 ^ 32)
    (h : statements.foldlM (FirstPassResult.add options) pass = .ok pass') :
    pass'.items = pass.items ++
        (visits options pass statements).filterMap (fun v => v.stmt.item? v.cursor) ∧
      ∀ v ∈ visits options pass statements, Visited options v := by
  induction statements generalizing pass with
  | nil =>
      cases h
      exact ⟨(List.append_nil _).symm, fun v hv => (by cases hv)⟩
  | cons stmt rest ih =>
      obtain ⟨mid, hmid, hrest⟩ := foldlM_cons_eq_ok.mp h
      have hadvances := advances_add hcursor hmid
      have hmidCursor : mid.cursor < 2 ^ 32 := by
        rw [hadvances.cursor]
        exact Nat.mod_lt _ (by decide)
      obtain ⟨hitems, hvisited⟩ := ih hmidCursor hrest
      rw [visits_cons hmid, filterMap_cons_eq, hitems, hadvances.items, List.append_assoc]
      refine ⟨rfl, fun v hv => ?_⟩
      obtain rfl | hv := List.mem_cons.mp hv
      · exact visited_of_add hcursor hmid
      · exact hvisited v hv

/-- A constant has the value of its declaration. -/
theorem find_constants {options : AssemblerOptions} {program : Program} {pass : FirstPassResult}
    (h : firstPass program options = .ok pass) {decl : EquDecl}
    (hdecl : .equ decl ∈ program.statements) :
    OrderedMap.find pass.constants decl.name = some decl.value := by
  have hconstants := constants_of_foldlM h
  rw [List.nil_append] at hconstants
  rw [hconstants]
  have hentry : (decl.name, decl.value) ∈ constantsOf program.statements :=
    List.mem_filterMap.mpr ⟨_, hdecl, rfl⟩
  refine Table.lookup_of_mem ?_ hentry
  -- two declarations of one name would have been refused
  have hfresh := freshNames_of_foldlM h
  have hpairs : (constantsOf program.statements).Pairwise fun d e => d.1 ≠ e.1 := by
    refine List.pairwise_filterMap.mpr (hfresh.imp fun {s t} hnames d hd e he hsame => ?_)
    cases s with
    | equ sdecl =>
        cases t with
        | equ tdecl =>
            cases hd
            cases he
            exact Bool.noConfusion (hnames _ rfl (congrArg some hsame.symm)).2
        | label | instruction | directive => cases he
    | label | instruction | directive => cases hd
  intro k v w hv hw
  exact congrArg Prod.snd (List.inj_on_of_nodup_map (List.pairwise_map.mpr hpairs) hv hw rfl)

/-! ## The uses of the literals -/

/-- The operand that the bytes of an instruction at an address hold: a number, or the target of a
branch. -/
def operandOf (address : Nat) (mode : Isa.AddressingMode) : List Byte → Nat
  | [_, b] => if mode = .rel then (address + 2 + b.toInt).toNat else b.toNat
  | [_, low, high] => low.toNat + 256 * high.toNat
  | _ => 0

/-- What an assembled program has for the literals of a statement: the bytes of a byte directive,
the operand of an instruction, the cursor behind an origin directive, the value of a constant. -/
def Visit.uses (v : Visit) (constants : List (Text × BitVec 32)) (bytes : List Byte) : List Nat :=
  match v.stmt with
  | .label _ => []
  | .equ decl => ((OrderedMap.find constants decl.name).map BitVec.toNat).toList
  | .instruction stmt =>
      match selectInstruction stmt with
      | .ok info =>
          (stmt.operands.filter (·.kind = .number)).map fun _ =>
            operandOf v.cursor info.addressingMode bytes
      | .error _ => []
  | .directive stmt =>
      match stmt.type with
      | .org => [v.next]
      | .byte => ((stmt.operands.zip bytes).filter (·.1.kind = .number)).map (·.2.toNat)
      | .include => []

theorem operands_of_selectInstruction {stmt : InstructionStmt} {info : Isa.InstructionInfo}
    (h : selectInstruction stmt = .ok info) :
    stmt.operands = [] ∨ ∃ operand, stmt.operands = [operand] ∧ info.addressingMode ≠ .imp := by
  obtain ⟨modes, hmodes, hmem⟩ := mode_of_selectInstruction h
  unfold candidates at hmodes
  split at hmodes
  · rename_i hnil
    exact .inl hnil
  · rename_i operand hoperand
    refine .inr ⟨operand, hoperand, ?_⟩
    intro himp
    rw [himp] at hmem
    -- none of the lists of modes for an operand has the implied one
    revert hmem
    simp only at hmodes
    split at hmodes
    · split at hmodes
      · cases hmodes
      · cases hmodes
        decide
    split at hmodes
    · split at hmodes <;> cases hmodes <;> decide
    split at hmodes
    · cases hmodes
      decide
    split at hmodes
    · cases hmodes
      split <;> decide
    · cases hmodes
      split <;> decide
    · split at hmodes
      · cases hmodes
        split <;> decide
      · cases hmodes
        decide
  · cases hmodes

theorem uses_bytes {value : Operand → Option Nat} {operands : List Operand} {bytes : List Byte}
    (hvalue : ∀ operand, operand.kind = .number → value operand = some operand.number.toNat)
    (h : List.Forall₂ (fun operand b => ∃ v, value operand = some v ∧ v ≤ 0xFF ∧
      b = BitVec.ofNat 8 v) operands bytes) :
    ((operands.zip bytes).filter (·.1.kind = .number)).map (·.2.toNat) =
      (operandNumbers operands).map BitVec.toNat := by
  induction h with
  | nil => rfl
  | @cons operand b operands bytes hb _ ih =>
      obtain ⟨v, hv, hle, rfl⟩ := hb
      rw [operandNumbers_cons, List.map_append, ← ih, List.zip_cons_cons]
      unfold operandNumbers
      by_cases hkind : operand.kind = .number
      · rw [List.filter_cons_of_pos (by exact decide_eq_true hkind),
          List.filter_cons_of_pos (by exact decide_eq_true hkind)]
        cases (hvalue operand hkind).symm.trans hv
        have hcut : (BitVec.ofNat 8 operand.number.toNat).toNat = operand.number.toNat := by
          rw [BitVec.toNat_ofNat]
          exact Nat.mod_eq_of_lt (by omega)
        rw [List.map_cons, hcut]
        rfl
      · rw [List.filter_cons_of_neg (by rw [decide_eq_true_iff]; exact hkind),
          List.filter_cons_of_neg (by rw [decide_eq_true_iff]; exact hkind)]
        rfl

/-- The operand of an instruction is the number of its literal. -/
theorem operandOf_eq {value : Operand → Option Nat} {a : Nat} {stmt : InstructionStmt}
    {info : Isa.InstructionInfo} {operand : Operand} {bytes : List Byte}
    (hinfo : selectInstruction stmt = .ok info) (hoperand : stmt.operands = [operand])
    (hmode : info.addressingMode ≠ .imp)
    (hvalue : value operand = some operand.number.toNat)
    (h : Encodes value a (.instruction stmt) bytes) :
    operandOf a info.addressingMode bytes = operand.number.toNat := by
  cases h with
  | implied h hnone =>
      cases hinfo.symm.trans h
      cases hcase : info.addressingMode with
      | imp => exact absurd hcase hmode
      | _ =>
          rw [hcase] at hnone
          cases hnone
  | byte h _ hrel hlist hv hle =>
      cases hinfo.symm.trans h
      cases hoperand.symm.trans hlist
      cases hvalue.symm.trans hv
      show (if _ then _ else (BitVec.ofNat 8 _).toNat) = _
      rw [if_neg hrel, BitVec.toNat_ofNat]
      exact Nat.mod_eq_of_lt (by omega)
  | @relative _ _ _ _ v d h hrel hlist hv hle hd hlow hhigh =>
      cases hinfo.symm.trans h
      cases hoperand.symm.trans hlist
      cases hvalue.symm.trans hv
      -- the offset is a signed byte, and the target it leads to is the number
      have hsigned : (BitVec.ofInt 8 d).toInt = d := by
        rw [BitVec.toInt_ofInt]
        exact Int.bmod_eq_of_le (by omega) (by omega)
      show (if _ then ((a : Int) + 2 + (BitVec.ofInt 8 d).toInt).toNat else _) = _
      rw [if_pos hrel, hsigned, ← hd]
      exact Int.toNat_natCast _
  | @word _ _ _ _ v h _ hlist hv hle =>
      cases hinfo.symm.trans h
      cases hoperand.symm.trans hlist
      cases hvalue.symm.trans hv
      show (BitVec.ofNat 8 _).toNat + 256 * (BitVec.ofNat 8 _).toNat = _
      rw [BitVec.toNat_ofNat, BitVec.toNat_ofNat]
      omega

/-- What an assembled program has for the literals of a statement are their numbers. -/
theorem uses_eq {options : AssemblerOptions} {program : Program} {pass : FirstPassResult}
    {v : Visit} {bytes : List Byte} (hpass : firstPass program options = .ok pass)
    (hstmt : v.stmt ∈ program.statements) (hvisited : Visited options v)
    (h : Encodes pass.value v.cursor v.stmt bytes) :
    v.uses pass.constants bytes = v.stmt.numbers.map BitVec.toNat := by
  have hvalue : ∀ operand : Operand, operand.kind = .number →
      pass.value operand = some operand.number.toNat := by
    intro operand hkind
    unfold FirstPassResult.value
    simp only [hkind]
  obtain ⟨cursor, stmt, next⟩ := v
  unfold Visit.uses Statement.numbers
  cases stmt with
  | label decl => rfl
  | equ decl =>
      show ((OrderedMap.find pass.constants decl.name).map BitVec.toNat).toList = _
      rw [find_constants hpass hstmt]
      rfl
  | instruction stmt =>
      -- the operand is a number, or the name of a label, which is no literal
      obtain ⟨info, hinfo, -⟩ := length_of_encodes_instruction h
      simp only [hinfo]
      obtain hnil | ⟨operand, hoperand, hmode⟩ := operands_of_selectInstruction hinfo
      · rw [hnil]
        rfl
      · rw [hoperand]
        unfold operandNumbers
        by_cases hkind : operand.kind = .number
        · rw [List.filter_cons_of_pos (by exact decide_eq_true hkind)]
          exact congrArg (fun n => [n]) (operandOf_eq hinfo hoperand hmode (hvalue _ hkind) h)
        · rw [List.filter_cons_of_neg (by rw [decide_eq_true_iff]; exact hkind)]
          rfl
  | directive stmt =>
      cases htype : stmt.type with
      | org =>
          obtain ⟨operand, hoperand, hkind, hnext⟩ := hvisited.org stmt rfl htype
          have hsingle : operandNumbers [operand] = [operand.number] := by
            unfold operandNumbers
            rw [List.filter_cons_of_pos (by exact decide_eq_true hkind)]
            rfl
          simp only [htype, hoperand, hsingle]
          exact congrArg (fun n => [n]) hnext
      | byte =>
          simp only [htype]
          cases h with
          | silent hother => exact absurd htype hother
          | bytes _ hbytes => exact uses_bytes hvalue hbytes
      | _ =>
          simp only [htype]
          rfl

/-! ## Exactness -/

/-- The literals of a statement of a source: the statements take the literals one after the
other. -/
def HasLiterals (source filename : Text) (stmt : Statement) (texts : List Text) : Prop :=
  ∃ tokens program front back, lex source filename = .ok tokens ∧ parse tokens = .ok program ∧
    program.statements = front ++ stmt :: back ∧
    texts = (((literalsOf tokens).map Token.text).drop
      (front.flatMap Statement.numbers).length).take stmt.numbers.length

/-- Every literal of a source that the lexer accepts is exact.  Its token has the number that the
text means; and when the assembler accepts a program, the statements are written into the ROM one
after the other, and what the program has for a literal is the number that the text means. -/
structure ExactLiterals (source filename : Text) : Prop where
  token : ∀ tokens, lex source filename = .ok tokens → ∀ t ∈ tokens, t.kind = .number →
    ∃ v, t.number = some v ∧ LiteralValue t.text v.toNat
  encoded : ∀ {Path : Type} (host : Host Path) (program : Program) (sourceFile : Text)
    (options : AssemblerOptions) (pass : FirstPassResult) (result : AssemblerResult),
    firstPass program options = .ok pass → encode host sourceFile options pass = .ok result →
    ∃ ws, WritesAll (List.replicate options.romSize.toNat 0xFF) ws result.rom ∧
      List.Forall₂ (fun v w => Encodes pass.value v.cursor v.stmt w.2 ∧
        (w.2 = [] ∨ options.origin.toNat ≤ v.cursor ∧
          w.1 = v.cursor - options.origin.toNat) ∧
        ∀ texts, HasLiterals source filename v.stmt texts →
          List.Forall₂ LiteralValue texts (v.uses pass.constants w.2))
        (program.visits options) ws

/-- The numbers of a statement are those that its literals mean. -/
theorem literalValue_numbers {source filename : Text} {stmt : Statement} {texts : List Text}
    (hsmall : ¬HasLargeLiteral source filename) (h : HasLiterals source filename stmt texts) :
    List.Forall₂ LiteralValue texts (stmt.numbers.map BitVec.toNat) := by
  obtain ⟨tokens, program, front, back, hlex, hparse, hstatements, rfl⟩ := h
  have hall : List.Forall₂ LiteralValue ((literalsOf tokens).map Token.text)
      ((numbersOf tokens).map BitVec.toNat) := by
    unfold numbersOf
    rw [List.map_map, List.forall₂_map_left_iff, List.forall₂_map_right_iff, List.forall₂_same]
    intro t ht
    obtain ⟨hmem, hkind⟩ := List.mem_filter.mp ht
    obtain ⟨v, hv, hvalue⟩ :=
      literalValue_of_not_hasLargeLiteral hsmall hlex hmem (of_decide_eq_true hkind)
    show LiteralValue t.text (t.number.getD 0).toNat
    rw [hv]
    exact hvalue
  obtain ⟨statements, hfrom, hprogram⟩ : ∃ statements, parseFrom tokens = .ok statements ∧
      program.statements = statements := by
    unfold parse at hparse
    cases hfrom : parseFrom tokens with
    | error e =>
        rw [hfrom] at hparse
        cases hparse
    | ok statements =>
        rw [hfrom] at hparse
        cases hparse
        exact ⟨statements, rfl, rfl⟩
  obtain ⟨others, hothers⟩ := parseFrom_numbers hfrom
  rw [← hprogram, hstatements, List.flatMap_append, List.flatMap_cons, List.append_assoc,
    List.append_assoc] at hothers
  -- the numbers of the statement stand where the texts are taken from
  have hmine : ((((numbersOf tokens).map BitVec.toNat).drop
      (front.flatMap Statement.numbers).length).take stmt.numbers.length) =
      stmt.numbers.map BitVec.toNat := by
    rw [← List.map_drop, ← List.map_take, hothers, List.drop_left, List.take_left]
  rw [← hmine]
  exact List.forall₂_take _ (List.forall₂_drop _ hall)

/-- The literals of a source are exact just when none of them has more than 32 bits. -/
theorem exactLiterals_iff (source filename : Text) :
    ExactLiterals source filename ↔ ¬HasLargeLiteral source filename := by
  constructor
  · rintro hexact ⟨tokens, hlex, t, ht, hkind, n, hn, hlarge⟩
    -- a number of a token is below 2^32
    obtain ⟨v, -, hv⟩ := hexact.token tokens hlex t ht hkind
    have hlt := v.isLt
    rw [hn.unique hv] at hlarge
    omega
  · intro hsmall
    refine ⟨fun tokens hlex t ht hkind =>
      literalValue_of_not_hasLargeLiteral hsmall hlex ht hkind, ?_⟩
    intro Path host program sourceFile options pass result hpass hencode
    have hcursor : options.origin.toNat < 2 ^ 32 := by omega
    have hstmts : (program.visits options).map Visit.stmt = program.statements :=
      stmt_visits hpass
    have hpassed : pass.items = (program.visits options).filterMap
        (fun v => v.stmt.item? v.cursor) ∧ ∀ v ∈ program.visits options, Visited options v :=
      items_of_visits hcursor hpass
    -- the items of the second pass are the statements that the first one has visited
    obtain ⟨hitems, hvisited⟩ := hpassed
    unfold encode at hencode
    rw [seq_eq_ok, bind_eq_ok] at hencode
    obtain ⟨-, encoding, hencoding, hresult⟩ := hencode
    have hplaced : pass.items = ((program.visits options).map fun v => (v.cursor, v.stmt)).filterMap
        fun p => p.2.item? p.1 := by
      rw [hitems, List.filterMap_map]
      rfl
    rw [hplaced] at hencoding
    have hromSize : (List.replicate options.romSize.toNat (0xFF : Byte)).length < 2 ^ 32 := by
      rw [List.length_replicate]
      exact options.romSize.isLt
    obtain ⟨ws, hws, hall⟩ := writesAll_foldlM pass host sourceFile options
      (List.forall_mem_map.mpr fun v hv => (hvisited v hv).ranged) hromSize hencoding
    refine ⟨ws, by rw [← Except.ok.inj hresult]; exact hall, ?_⟩
    rw [List.forall₂_map_left_iff] at hws
    refine List.forall₂_iff_get.mpr ⟨hws.length_eq, fun i hv hw => ?_⟩
    obtain ⟨hencodes, hplace⟩ := hws.get hv hw
    -- what stands in the program is the number of the statement, and that is what the text means
    refine ⟨hencodes, hplace, fun texts htexts => ?_⟩
    have hmem := List.getElem_mem hv
    have hstmt : ((program.visits options)[i]).stmt ∈ program.statements := by
      rw [← hstmts]
      exact List.mem_map_of_mem hmem
    have huses := uses_eq hpass hstmt (hvisited _ hmem) hencodes
    show List.Forall₂ LiteralValue texts (((program.visits options)[i]).uses _ _)
    rw [huses]
    exact literalValue_numbers hsmall htexts

/-- A literal of 33 bits. -/
def largeSource : Text := "lda #$100000042\n".toList

def largeTokens : List Token :=
  match lex largeSource [] with
  | .ok tokens => tokens
  | .error _ => []

theorem not_exactLiterals_large : ¬ExactLiterals largeSource [] := by
  have hlex : lex largeSource [] = .ok largeTokens := by decide +kernel
  intro hexact
  have htoken : ∃ t ∈ largeTokens, t.kind = .number ∧ t.number = some 0x42 ∧
      t.text = "#$100000042".toList := by decide +kernel
  obtain ⟨t, ht, hkind, hnumber, htext⟩ := htoken
  obtain ⟨v, hv, hvalue⟩ := hexact.token _ hlex t ht hkind
  rw [hnumber] at hv
  cases hv
  have hlarge : LiteralValue t.text (Digits.value 16 "100000042".toList) := by
    rw [htext]
    refine .marked (.dollar _) ⟨by decide, ?_⟩
    intro ch hch
    have hdigit : ch = '1' ∨ ch = '0' ∨ ch = '4' ∨ ch = '2' := by simpa using hch
    obtain rfl | rfl | rfl | rfl := hdigit
    · exact ⟨1, by omega, rfl⟩
    · exact ⟨0, by omega, rfl⟩
    · exact ⟨4, by omega, rfl⟩
    · exact ⟨2, by omega, rfl⟩
  have heq := hvalue.unique hlarge
  revert heq
  decide

example : ((assemble flatHost 1 largeSource [] { romSize := 2 }).bind Except.toOption).map
    AssemblerResult.rom = some [0x10, 0x42] := by decide +kernel

end Irata2.Assembler
