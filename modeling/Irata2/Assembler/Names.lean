import Irata2.Assembler.Layout

/-!
# The names of a program

Labels and constants share their names' space, and the first pass checks them in the order in which
they stand.  A label behind a constant of its name is the one case that it lets through.
-/

namespace Irata2.Assembler

open Library

/-! ## Definitions -/

/-- The name that a statement defines. -/
def Statement.name? : Statement → Option Text
  | .label decl => some decl.name
  | .equ decl => some decl.name
  | .instruction _ => none
  | .directive _ => none

def definedNames (statements : List Statement) : List Text := statements.filterMap Statement.name?

/-- The entry of a constant in the table of constants. -/
def Statement.constant? : Statement → Option (Text × BitVec 32)
  | .equ decl => some (decl.name, decl.value)
  | _ => none

def Statement.isEqu (stmt : Statement) : Bool := stmt.constant?.isSome

/-- No label stands behind a constant of its name. -/
def NoLabelAfterEqu (statements : List Statement) : Prop :=
  statements.Pairwise fun s t => ∀ equ label, s = .equ equ → t = .label label →
    equ.name ≠ label.name

/-! ## What the first pass checks -/

/-- One statement of the first pass, and the tables of names. -/
structure Defines (pass : FirstPassResult) (stmt : Statement) (pass' : FirstPassResult) :
    Prop where
  symbols : pass'.symbols = pass.symbols ++ (stmt.symbol? pass.cursor).toList
  constants : pass'.constants = pass.constants ++ stmt.constant?.toList
  freshSymbol : ∀ name, stmt.name? = some name → OrderedMap.find pass.symbols name = none
  freshConstant : ∀ e, stmt.constant? = some e → OrderedMap.find pass.constants e.1 = none

/-- A statement that defines nothing. -/
theorem defines_of_emit {pass pass' : FirstPassResult} {stmt : Statement} {item : Emittable}
    {size : Nat} (hname : stmt.name? = none) (hsymbol : stmt.symbol? pass.cursor = none)
    (hconstant : stmt.constant? = none) (h : pass.emit item size = .ok pass') :
    Defines pass stmt pass' := by
  rcases emit_eq_ok h with ⟨-, -, -, hsymbols, hconstants, -⟩
  exact
    { symbols := by
        rw [hsymbols, hsymbol]
        exact (List.append_nil _).symm
      constants := by
        rw [hconstants, hconstant]
        exact (List.append_nil _).symm
      freshSymbol := fun name h => by
        rw [hname] at h
        cases h
      freshConstant := fun e h => by
        rw [hconstant] at h
        cases h }

theorem defines_silent {pass pass' : FirstPassResult} {directive : DirectiveStmt}
    (hsymbols : pass'.symbols = pass.symbols) (hconstants : pass'.constants = pass.constants) :
    Defines pass (.directive directive) pass' where
  symbols := hsymbols.trans (List.append_nil _).symm
  constants := hconstants.trans (List.append_nil _).symm
  freshSymbol := fun _ h => (by cases h)
  freshConstant := fun _ h => (by cases h)

theorem defines_add {options : AssemblerOptions} {pass pass' : FirstPassResult}
    {stmt : Statement} (h : pass.add options stmt = .ok pass') : Defines pass stmt pass' := by
  cases stmt with
  | label label =>
      unfold FirstPassResult.add FirstPassResult.addLabel at h
      simp only [seq_eq_ok, throwIf_eq_ok] at h
      rcases h with ⟨hfresh, -, h⟩
      cases h
      exact
        { symbols := rfl
          constants := (List.append_nil _).symm
          freshSymbol := fun name h => by
            cases h
            exact Option.not_isSome_iff_eq_none.mp hfresh
          freshConstant := fun e h => (by cases h) }
  | equ equ =>
      unfold FirstPassResult.add FirstPassResult.addConstant at h
      simp only [seq_eq_ok, throwIf_eq_ok] at h
      rcases h with ⟨hconstant, hsymbol, h⟩
      cases h
      exact
        { symbols := (List.append_nil _).symm
          constants := rfl
          freshSymbol := fun name h => by
            cases h
            exact Option.not_isSome_iff_eq_none.mp hsymbol
          freshConstant := fun e h => by
            cases h
            exact Option.not_isSome_iff_eq_none.mp hconstant }
  | instruction instruction =>
      -- an instruction defines no name
      rcases bind_eq_ok.mp h with ⟨info, -, hemit⟩
      exact defines_of_emit rfl rfl rfl hemit
  | directive directive =>
      unfold FirstPassResult.add at h
      cases htype : directive.type with
      | org =>
          simp only [htype] at h
          unfold FirstPassResult.addOrg at h
          split at h
          · simp only [seq_eq_ok] at h
            rcases h with ⟨-, -, -, h⟩
            cases h
            exact defines_silent rfl rfl
          · cases h
      | byte =>
          simp only [htype] at h
          rcases seq_eq_ok.mp h with ⟨-, hemit⟩
          exact defines_of_emit rfl rfl rfl hemit
      | _ =>
          simp only [htype] at h
          cases h
          exact defines_silent rfl rfl

/-- The names of an accepted program are new when the pass reaches them. -/
theorem fresh_of_foldlM {options : AssemblerOptions} {statements : List Statement}
    {pass pass' : FirstPassResult}
    (h : statements.foldlM (FirstPassResult.add options) pass = .ok pass') :
    (∀ stmt ∈ statements, ∀ name, stmt.name? = some name →
      OrderedMap.find pass.symbols name = none) ∧
      ∀ stmt ∈ statements, ∀ e, stmt.constant? = some e →
        OrderedMap.find pass.constants e.1 = none := by
  induction statements generalizing pass with
  | nil => exact ⟨fun stmt h => (by cases h), fun stmt h => (by cases h)⟩
  | cons stmt rest ih =>
      rcases foldlM_cons_eq_ok.mp h with ⟨mid, hmid, hrest⟩
      have hdefines := defines_add hmid
      have hlater := ih hrest
      -- what is new to the longer tables is new to the shorter ones
      rw [hdefines.symbols, hdefines.constants] at hlater
      constructor
      · intro s hs name hname
        rcases List.mem_cons.mp hs with rfl | hs
        · exact hdefines.freshSymbol name hname
        · exact (OrderedMap.find_append_eq_none (hlater.1 s hs name hname)).1
      · intro s hs e he
        rcases List.mem_cons.mp hs with rfl | hs
        · exact hdefines.freshConstant e he
        · exact (OrderedMap.find_append_eq_none (hlater.2 s hs e he)).1

/-- In an accepted program, two statements of one name are a constant and a label behind it. -/
theorem nodup_of_noLabelAfterEqu {options : AssemblerOptions} {statements : List Statement}
    {pass pass' : FirstPassResult}
    (h : statements.foldlM (FirstPassResult.add options) pass = .ok pass')
    (hlabels : NoLabelAfterEqu statements) : (definedNames statements).Nodup := by
  induction statements generalizing pass with
  | nil => exact List.nodup_nil
  | cons stmt rest ih =>
      rcases foldlM_cons_eq_ok.mp h with ⟨mid, hmid, hrest⟩
      rcases List.pairwise_cons.mp hlabels with ⟨hhead, htail⟩
      have hdefines := defines_add hmid
      have hfresh := fresh_of_foldlM hrest
      rw [hdefines.symbols, hdefines.constants] at hfresh
      have hnodup := ih hrest htail
      cases hname : stmt.name? with
      | none =>
          unfold definedNames
          rw [List.filterMap_cons_none hname]
          exact hnodup
      | some name =>
          unfold definedNames
          rw [List.filterMap_cons_some hname]
          apply List.nodup_cons.mpr ⟨_, hnodup⟩
          intro hmem
          rcases List.mem_filterMap.mp hmem with ⟨other, hother, hsame⟩
          cases stmt with
          | label label =>
              cases hname
              -- the label is in the table of symbols, where both kinds of statements look
              have hnone := (OrderedMap.find_append_eq_none (hfresh.1 other hother _ hsame)).2
              unfold Statement.symbol? at hnone
              rw [Option.toList_some, OrderedMap.find_singleton_self] at hnone
              cases hnone
          | equ equ =>
              cases hname
              cases other with
              | label label => exact hhead _ hother equ label rfl rfl (Option.some.inj hsame).symm
              | equ equ' =>
                  have hnone := (OrderedMap.find_append_eq_none (hfresh.2 _ hother _ rfl)).2
                  unfold Statement.constant? at hnone
                  rw [Option.toList_some, Option.some.inj hsame, OrderedMap.find_singleton_self] at hnone
                  cases hnone
              | instruction instruction => cases hsame
              | directive directive => cases hsame
          | instruction instruction => cases hname
          | directive directive => cases hname

theorem noLabelAfterEqu_of_nodup {statements : List Statement}
    (h : (definedNames statements).Nodup) : NoLabelAfterEqu statements := by
  unfold definedNames at h
  apply List.Pairwise.imp _ (List.pairwise_filterMap.mp h)
  intro s t hne equ label hs ht
  subst hs ht
  exact hne _ rfl _ rfl

/-! ## Places do not matter -/

/-- An operand without its place in the source. -/
def Operand.bare (operand : Operand) : Operand := { operand with span := {} }

/-- A statement without its place in the source. -/
def Statement.bare : Statement → Statement
  | .label decl => .label { decl with span := {} }
  | .equ decl => .equ { decl with span := {} }
  | .instruction stmt =>
      .instruction { stmt with operands := stmt.operands.map Operand.bare, span := {} }
  | .directive stmt =>
      .directive { stmt with operands := stmt.operands.map Operand.bare, span := {} }

def Emittable.bare (item : Emittable) : Emittable :=
  { item with span := {}, operands := item.operands.map Operand.bare }

def FirstPassResult.bare (pass : FirstPassResult) : FirstPassResult :=
  { pass with items := pass.items.map Emittable.bare }

theorem separated_map {α β : Type} (comma newline : Text) (item : β → Text) (f : α → β)
    (l : List α) :
    separated comma newline item (l.map f) = separated comma newline (fun x => item (f x)) l := by
  induction l with
  | nil => rfl
  | cons x l ih =>
      cases l with
      | nil => rfl
      | cons y l =>
          show item (f x) ++ comma ++ newline ++ separated comma newline item ((y :: l).map f) = _
          rw [ih]
          rfl

theorem formatOperands_bare (operands : List Operand) :
    formatOperands (operands.map Operand.bare) = formatOperands operands := by
  unfold formatOperands
  rw [separated_map, List.isEmpty_map]
  rfl

theorem candidates_bare (stmt : InstructionStmt) :
    (candidates { stmt with operands := stmt.operands.map Operand.bare, span := {} }).toOption =
      (candidates stmt).toOption := by
  rcases stmt with ⟨mnemonic, operands, span⟩
  rcases operands with _ | ⟨operand, _ | ⟨second, operands⟩⟩
  · rfl
  · rcases operand with ⟨kind, number, label, immediate, indirect, register, place⟩
    unfold candidates
    simp only [List.map_cons, List.map_nil, Operand.bare]
    -- the two sides branch alike, and differ in the places of their errors
    split
    · split
      · rfl
      · rfl
    · rfl
  · rfl

theorem selectInstruction_bare (stmt : InstructionStmt) :
    (selectInstruction { stmt with operands := stmt.operands.map Operand.bare,
                                   span := {} }).toOption =
      (selectInstruction stmt).toOption := by
  unfold selectInstruction
  rw [toOption_bind, toOption_bind, candidates_bare]
  congr 1
  funext modes
  cases modes.findSome? (findInstructionByMnemonicAndMode stmt.mnemonic) with
  | none => rfl
  | some info => rfl

theorem emit_bare (pass : FirstPassResult) (item : Emittable) (size : Nat) :
    (pass.bare.emit item.bare size).toOption = (pass.emit item size).toOption.map
      FirstPassResult.bare := by
  have hcursor : pass.bare.cursor = pass.cursor := rfl
  unfold FirstPassResult.emit validateCursor
  rw [hcursor]
  generalize lastByte pass.cursor size = last
  generalize nextCursor pass.cursor size = next
  simp only [toOption_bind, toOption_throwIf]
  by_cases hfirst : pass.cursor > 0xFFFF
  · rw [if_pos hfirst]
    rfl
  · rw [if_neg hfirst]
    by_cases hlast : last > 0xFFFF
    · rw [if_pos hlast]
      rfl
    · rw [if_neg hlast]
      unfold FirstPassResult.bare
      simp only [Option.bind_some, pure, Except.pure, Except.toOption, Option.map_some,
        List.map_append, List.map_cons, List.map_nil]

/-- One statement of the first pass, with and without places. -/
theorem add_bare (options : AssemblerOptions) (pass : FirstPassResult) (stmt : Statement) :
    (pass.bare.add options stmt.bare).toOption =
      (pass.add options stmt).toOption.map FirstPassResult.bare := by
  cases stmt with
  | label decl =>
      -- the checks of a label read its name and the cursor only
      unfold FirstPassResult.add FirstPassResult.addLabel validateCursor Statement.bare
      simp only [toOption_bind, toOption_throwIf]
      show (if (OrderedMap.find pass.symbols decl.name).isSome = true then none else some ()).bind _
        = _
      split
      · rfl
      · show (if pass.cursor > 0xFFFF then none else some ()).bind _ = Option.map _
          ((if pass.cursor > 0xFFFF then none else some ()).bind _)
        split
        · rfl
        · rfl
  | equ decl =>
      -- those of a constant read its name only
      unfold FirstPassResult.add FirstPassResult.addConstant Statement.bare
      simp only [toOption_bind, toOption_throwIf]
      show (if (OrderedMap.find pass.constants decl.name).isSome = true then none
        else some ()).bind _ = _
      split
      · rfl
      · show (if (OrderedMap.find pass.symbols decl.name).isSome = true then none
          else some ()).bind _ = Option.map _
          ((if (OrderedMap.find pass.symbols decl.name).isSome = true then none
            else some ()).bind _)
        split
        · rfl
        · rfl
  | instruction stmt =>
      show (selectInstruction _ >>= _).toOption = Option.map _ (selectInstruction stmt >>= _).toOption
      rw [toOption_bind, toOption_bind, selectInstruction_bare]
      cases selectInstruction stmt with
      | error e => rfl
      | ok info =>
          -- the item keeps its text, since the text has no spans
          have htext : formatInstructionText
              { stmt with operands := stmt.operands.map Operand.bare, span := {} } =
              formatInstructionText stmt := by
            unfold formatInstructionText
            rw [formatOperands_bare]
          have hemit := emit_bare pass
            { kind := .instruction, address := BitVec.ofNat 16 pass.cursor, span := stmt.span,
              text := formatInstructionText stmt, opcode := info.opcode,
              addressingMode := info.addressingMode, operandBytes := info.addressingMode.operands,
              operands := stmt.operands } (1 + info.addressingMode.operands)
          show (FirstPassResult.emit pass.bare _ _).toOption = _
          rw [htext]
          exact hemit
  | directive stmt =>
      unfold FirstPassResult.add Statement.bare
      cases htype : stmt.type with
      | org =>
          simp only [htype]
          unfold FirstPassResult.addOrg
          rcases stmt with ⟨type, operands, path, span⟩
          rcases operands with _ | ⟨operand, _ | ⟨second, operands⟩⟩
          · rfl
          · -- one operand, whose kind and number have no span
            simp only [List.map_cons, List.map_nil, toOption_bind, toOption_throwIf]
            show (if operand.kind ≠ .number then none else some ()).bind _ = _
            split
            · rfl
            · show (if operand.number.toNat > 0xFFFF then none else some ()).bind _ = Option.map _
                ((if operand.number.toNat > 0xFFFF then none else some ()).bind _)
              split
              · rfl
              · show (if operand.number.toNat < options.origin.toNat then none
                  else some ()).bind _ = Option.map _
                  ((if operand.number.toNat < options.origin.toNat then none
                    else some ()).bind _)
                split
                · rfl
                · rfl
          · rfl
      | byte =>
          simp only [htype]
          unfold FirstPassResult.addBytes
          simp only [toOption_bind, toOption_throwIf, List.isEmpty_map, List.length_map]
          split
          · rfl
          · have htext : formatDirectiveText
                { stmt with operands := stmt.operands.map Operand.bare, span := {} } =
                formatDirectiveText stmt := by
              unfold formatDirectiveText
              rw [formatOperands_bare]
            have hemit := emit_bare pass
              { kind := .bytes, address := BitVec.ofNat 16 pass.cursor, span := stmt.span,
                text := formatDirectiveText stmt, operands := stmt.operands }
              (stmt.operands.length % 2 ^ 32)
            rw [htype] at htext
            show (FirstPassResult.emit pass.bare _ _).toOption = _
            rw [htext]
            exact hemit
      | _ =>
          simp only [htype]
          rfl

/-- A loop whose steps agree gives results that agree. -/
theorem firstPass_bare (options : AssemblerOptions) (statements : List Statement)
    (pass : FirstPassResult) :
    ((statements.map Statement.bare).foldlM (FirstPassResult.add options) pass.bare).toOption =
      (statements.foldlM (FirstPassResult.add options) pass).toOption.map FirstPassResult.bare := by
  induction statements generalizing pass with
  | nil => rfl
  | cons stmt rest ih =>
      rw [List.map_cons, List.foldlM_cons, List.foldlM_cons, toOption_bind, toOption_bind, add_bare]
      cases pass.add options stmt with
      | error e => rfl
      | ok mid => exact ih mid

section Resolve

variable (symbols : List (Text × Word)) (constants : List (Text × BitVec 32))

/-- Two resolutions that depend on an operand's value alone do not see its place. -/
theorem resolve_bare {α : Type} {resolve : Operand → Except AssemblerError α} {limit : Nat}
    {f : Nat → α} (operand : Operand)
    (h : ∀ operand, (resolve operand).toOption =
      ((FirstPassResult.value ⟨[], symbols, constants, 0, 0⟩ operand).filter (· ≤ limit)).map f) :
    (resolve operand.bare).toOption = (resolve operand).toOption := by
  rw [h, h]
  rfl

theorem resolveByteOperand_bare (operand : Operand) :
    (resolveByteOperand symbols constants operand.bare).toOption =
      (resolveByteOperand symbols constants operand).toOption :=
  resolve_bare symbols constants operand (toOption_resolveByteOperand ⟨[], symbols, constants, 0, 0⟩)

theorem resolveWordOperand_bare (operand : Operand) :
    (resolveWordOperand symbols constants operand.bare).toOption =
      (resolveWordOperand symbols constants operand).toOption :=
  resolve_bare symbols constants operand (toOption_resolveWordOperand ⟨[], symbols, constants, 0, 0⟩)

theorem resolveTarget_bare (operand : Operand) :
    (resolveTarget symbols constants operand.bare).toOption =
      (resolveTarget symbols constants operand).toOption :=
  resolve_bare symbols constants operand (toOption_resolveTarget ⟨[], symbols, constants, 0, 0⟩)

theorem resolveRelativeOperand_bare (operand : Operand) (address : Word) :
    (resolveRelativeOperand symbols constants operand.bare address).toOption =
      (resolveRelativeOperand symbols constants operand address).toOption := by
  unfold resolveRelativeOperand
  rw [toOption_bind, toOption_bind, resolveTarget_bare]
  simp only [toOption_bind, toOption_throwIf]

end Resolve

section Encode

variable {Path : Type} (host : Host Path) (sourceFile : Text) (options : AssemblerOptions)
  (pass : FirstPassResult)

/-- The loop over the operands of a byte directive, with and without places. -/
theorem addBytes_bare (item : Emittable) (operands : List Operand) {i : Nat}
    {encoding encoding' : Encoding} (hrom : encoding.rom = encoding'.rom) :
    (Encoding.addBytes host sourceFile options pass.bare item.bare encoding i
        (operands.map Operand.bare)).toOption.map Encoding.rom =
      (Encoding.addBytes host sourceFile options pass item encoding' i
        operands).toOption.map Encoding.rom := by
  induction operands generalizing i encoding encoding' with
  | nil =>
      show some encoding.rom = some encoding'.rom
      rw [hrom]
  | cons operand operands ih =>
      have haddress : item.bare.address = item.address := rfl
      rw [List.map_cons]
      unfold Encoding.addBytes
      simp only [toOption_bind, toOption_throwIf, hrom, haddress]
      split
      · rfl
      · simp only [Option.bind_some]
        have hvalue := resolveByteOperand_bare pass.symbols pass.constants operand
        show Option.map _ (Option.bind (resolveByteOperand pass.symbols pass.constants
          operand.bare).toOption _) = _
        rw [hvalue]
        cases resolveByteOperand pass.symbols pass.constants operand with
        | error e => rfl
        | ok value =>
            apply ih
            rw [rom_addRecord, rom_addRecord]
            unfold Encoding.store
            simp only [hrom]

theorem rom_write_bare (item : Emittable) (i : Nat) (b : Byte) {encoding encoding' : Encoding}
    (hrom : encoding.rom = encoding'.rom) :
    (encoding.write host sourceFile options item.bare i b).rom =
      (encoding'.write host sourceFile options item i b).rom := by
  rw [rom_write, rom_write, hrom]
  rfl

theorem addInstruction_bare (item : Emittable) {encoding encoding' : Encoding}
    (hrom : encoding.rom = encoding'.rom) :
    (encoding.addInstruction host sourceFile options pass.bare item.bare).toOption.map
        Encoding.rom =
      (encoding'.addInstruction host sourceFile options pass item).toOption.map Encoding.rom := by
  have hwrite := @rom_write_bare Path host sourceFile options item
  have hfirst : (encoding.write host sourceFile options item.bare 0 item.bare.opcode).rom =
      (encoding'.write host sourceFile options item 0 item.opcode).rom := hwrite 0 _ hrom
  have hoperands : item.bare.operands = item.operands.map Operand.bare := rfl
  have hcount : item.bare.operandBytes = item.operandBytes := rfl
  unfold Encoding.addInstruction
  rw [hoperands, hcount]
  show Option.map Encoding.rom (Except.toOption (if item.operandBytes = 1 then _ else _)) = _
  generalize encoding.write host sourceFile options item.bare 0 item.bare.opcode = first at *
  generalize encoding'.write host sourceFile options item 0 item.opcode = first' at *
  split
  · cases item.operands with
    | nil => rfl
    | cons operand operands =>
        -- what follows the operand's value is the same in both branches
        have hfinish : ∀ x y : Except AssemblerError Byte, x.toOption = y.toOption →
            Option.map Encoding.rom (x >>= fun value => do
              throwIf (item.address.toNat - options.origin.toNat + 1 ≥ first.rom.length)
                (⟨{}, "address exceeds cartridge size"⟩ : AssemblerError)
              pure (first.write host sourceFile options item.bare 1 value)).toOption =
            Option.map Encoding.rom (y >>= fun value => do
              throwIf (item.address.toNat - options.origin.toNat + 1 ≥ first'.rom.length)
                (⟨item.span, "address exceeds cartridge size"⟩ : AssemblerError)
              pure (first'.write host sourceFile options item 1 value)).toOption := by
          intro x y hxy
          rw [toOption_bind, toOption_bind, hxy]
          cases y.toOption with
          | none => rfl
          | some value =>
              simp only [Option.bind_some, toOption_bind, toOption_throwIf, hfirst]
              split
              · rfl
              · exact congrArg some (hwrite 1 value hfirst)
        simp only [List.map_cons]
        by_cases hmode : item.addressingMode = .rel
        · rw [if_pos hmode, if_pos (show item.bare.addressingMode = .rel from hmode)]
          exact hfinish _ _ (resolveRelativeOperand_bare _ _ _ _)
        · rw [if_neg hmode, if_neg (show ¬item.bare.addressingMode = .rel from hmode)]
          exact hfinish _ _ (resolveByteOperand_bare _ _ _)
  · split
    · cases item.operands with
      | nil => rfl
      | cons operand operands =>
          simp only [List.map_cons]
          rw [toOption_bind, toOption_bind]
          have hvalue : (resolveWordOperand pass.bare.symbols pass.bare.constants
              operand.bare).toOption =
              (resolveWordOperand pass.symbols pass.constants operand).toOption :=
            resolveWordOperand_bare _ _ _
          rw [hvalue]
          cases (resolveWordOperand pass.symbols pass.constants operand).toOption with
          | none => rfl
          | some value =>
              simp only [Option.bind_some, toOption_bind, toOption_throwIf, hfirst]
              show Option.map _ ((if item.address.toNat - options.origin.toNat + 2 ≥
                first'.rom.length then none else some ()).bind _) = _
              split
              · rfl
              · exact congrArg some (hwrite 2 _ (hwrite 1 _ hfirst))
    · split
      · rfl
      · exact congrArg some hfirst

theorem encodingAdd_bare (item : Emittable) {encoding encoding' : Encoding}
    (hrom : encoding.rom = encoding'.rom) :
    (encoding.add host sourceFile options pass.bare item.bare).toOption.map Encoding.rom =
      (encoding'.add host sourceFile options pass item).toOption.map Encoding.rom := by
  unfold Encoding.add
  simp only [toOption_bind, toOption_throwIf, hrom]
  show Option.map _ ((if item.address.toNat < options.origin.toNat then none else some ()).bind _)
    = _
  split
  · rfl
  · show Option.map _ ((if item.address.toNat - options.origin.toNat ≥ encoding'.rom.length then
      none else some ()).bind _) = Option.map _ ((if item.address.toNat - options.origin.toNat ≥
        encoding'.rom.length then none else some ()).bind _)
    split
    · rfl
    · simp only [Option.bind_some]
      have hkind : item.bare.kind = item.kind := rfl
      rw [hkind]
      cases item.kind with
      | instruction => exact addInstruction_bare host sourceFile options pass item hrom
      | bytes => exact addBytes_bare host sourceFile options pass item item.operands hrom

/-- The second pass, with and without places. -/
theorem foldlM_encodingAdd_bare (items : List Emittable) {encoding encoding' : Encoding}
    (hrom : encoding.rom = encoding'.rom) :
    ((items.map Emittable.bare).foldlM (Encoding.add host sourceFile options pass.bare)
        encoding).toOption.map Encoding.rom =
      (items.foldlM (Encoding.add host sourceFile options pass) encoding').toOption.map
        Encoding.rom := by
  induction items generalizing encoding encoding' with
  | nil => exact congrArg some hrom
  | cons item rest ih =>
      have hadd := encodingAdd_bare host sourceFile options pass item hrom
      rw [List.map_cons, List.foldlM_cons, List.foldlM_cons, toOption_bind, toOption_bind]
      cases hx : encoding.add host sourceFile options pass.bare item.bare with
      | error e =>
          rw [hx] at hadd
          cases hy : encoding'.add host sourceFile options pass item with
          | error e' => rfl
          | ok y =>
              rw [hy] at hadd
              cases hadd
      | ok x =>
          rw [hx] at hadd
          cases hy : encoding'.add host sourceFile options pass item with
          | error e' =>
              rw [hy] at hadd
              cases hadd
          | ok y =>
              rw [hy] at hadd
              exact ih (Option.some.inj hadd)

theorem encode_bare :
    (encode host sourceFile options pass.bare).toOption.map AssemblerResult.rom =
      (encode host sourceFile options pass).toOption.map AssemblerResult.rom := by
  have hfold := foldlM_encodingAdd_bare host sourceFile options pass pass.items
    (rfl : (Encoding.mk (List.replicate options.romSize.toNat 0xFF) [] []).rom = _)
  have hmax : pass.bare.maxAddress = pass.maxAddress := rfl
  unfold encode
  simp only [toOption_bind, toOption_throwIf, hmax]
  generalize (if pass.maxAddress.toNat < options.origin.toNat then options.origin.toNat
    else pass.maxAddress.toNat) = top
  split
  · rfl
  · simp only [Option.bind_some]
    show Option.map _ (((pass.items.map Emittable.bare).foldlM (Encoding.add host sourceFile options
      pass.bare) _).toOption.bind _) = _
    cases hx : (pass.items.map Emittable.bare).foldlM (Encoding.add host sourceFile options
        pass.bare) { rom := List.replicate options.romSize.toNat 0xFF } with
    | error e =>
        rw [hx] at hfold
        cases hy : pass.items.foldlM (Encoding.add host sourceFile options pass)
            { rom := List.replicate options.romSize.toNat 0xFF } with
        | error e' => rfl
        | ok y =>
            rw [hy] at hfold
            cases hfold
    | ok x =>
        rw [hx] at hfold
        cases hy : pass.items.foldlM (Encoding.add host sourceFile options pass)
            { rom := List.replicate options.romSize.toNat 0xFF } with
        | error e' =>
            rw [hy] at hfold
            cases hfold
        | ok y =>
            rw [hy] at hfold
            exact hfold

/-- The ROM of a program. -/
def romOf (statements : List Statement) : Option (List Byte) :=
  (assembleProgram host { statements } sourceFile options).toOption.map AssemblerResult.rom

theorem romOf_bare (statements : List Statement) :
    romOf host sourceFile options (statements.map Statement.bare) =
      romOf host sourceFile options statements := by
  have hpass := firstPass_bare options statements
    { maxAddress := options.origin, cursor := options.origin.toNat }
  unfold romOf assembleProgram firstPass
  rw [toOption_bind, toOption_bind]
  simp only
  have hinit : (FirstPassResult.mk [] [] [] options.origin options.origin.toNat).bare =
      FirstPassResult.mk [] [] [] options.origin options.origin.toNat := rfl
  rw [hinit] at hpass
  rw [hpass]
  cases statements.foldlM (FirstPassResult.add options)
      { maxAddress := options.origin, cursor := options.origin.toNat } with
  | error e => rfl
  | ok pass => exact encode_bare host sourceFile options pass

end Encode

/-! ## Constants apart -/

def FirstPassResult.withConstants (pass : FirstPassResult) (constants : List (Text × BitVec 32)) :
    FirstPassResult := { pass with constants }

/-- The constants of a program, in their order. -/
def constantsOf (statements : List Statement) : List (Text × BitVec 32) :=
  statements.filterMap Statement.constant?

/-- Only a constant looks at the constants. -/
theorem add_withConstants (options : AssemblerOptions) (pass : FirstPassResult)
    (constants : List (Text × BitVec 32)) {stmt : Statement} (h : stmt.isEqu = false) :
    ((pass.withConstants constants).add options stmt).toOption =
      (pass.add options stmt).toOption.map (FirstPassResult.withConstants · constants) := by
  -- emitting looks at the cursor only
  have hemit : ∀ (item : Emittable) (size : Nat),
      ((pass.withConstants constants).emit item size).toOption =
        (pass.emit item size).toOption.map (FirstPassResult.withConstants · constants) := by
    intro item size
    have hcursor : (pass.withConstants constants).cursor = pass.cursor := rfl
    unfold FirstPassResult.emit
    rw [hcursor]
    generalize lastByte pass.cursor size = last
    generalize nextCursor pass.cursor size = next
    simp only [toOption_bind]
    cases validateCursor pass.cursor item.span with
    | error e => rfl
    | ok u =>
        cases validateCursor last item.span with
        | error e => rfl
        | ok u => rfl
  cases stmt with
  | label decl =>
      unfold FirstPassResult.add FirstPassResult.addLabel
      simp only [toOption_bind, toOption_throwIf]
      show Option.bind (if (OrderedMap.find pass.symbols decl.name).isSome = true then none
        else some ()) _ = _
      split
      · rfl
      · show Option.bind (validateCursor pass.cursor decl.span).toOption _ =
          Option.map _ (Option.bind (validateCursor pass.cursor decl.span).toOption _)
        cases validateCursor pass.cursor decl.span with
        | error e => rfl
        | ok u => rfl
  | equ decl => cases h
  | instruction stmt =>
      show (selectInstruction stmt >>= _).toOption = Option.map _ (selectInstruction stmt >>= _).toOption
      rw [toOption_bind, toOption_bind]
      cases selectInstruction stmt with
      | error e => rfl
      | ok info => exact hemit _ _
  | directive stmt =>
      unfold FirstPassResult.add
      cases htype : stmt.type with
      | org =>
          simp only [htype]
          rcases stmt with ⟨type, operands, path, span⟩
          unfold FirstPassResult.addOrg
          rcases operands with _ | ⟨operand, _ | ⟨second, operands⟩⟩
          · rfl
          · simp only [toOption_bind, toOption_throwIf]
            split
            · rfl
            · simp only [Option.bind_some]
              split
              · rfl
              · simp only [Option.bind_some]
                split
                · rfl
                · rfl
          · rfl
      | byte =>
          simp only [htype]
          unfold FirstPassResult.addBytes
          simp only [toOption_bind, toOption_throwIf]
          split
          · rfl
          · exact hemit _ _
      | _ =>
          simp only [htype]
          rfl

theorem foldlM_withConstants (options : AssemblerOptions) (constants : List (Text × BitVec 32))
    {statements : List Statement} (h : ∀ stmt ∈ statements, stmt.isEqu = false)
    (pass : FirstPassResult) :
    (statements.foldlM (FirstPassResult.add options) (pass.withConstants constants)).toOption =
      (statements.foldlM (FirstPassResult.add options) pass).toOption.map
        (FirstPassResult.withConstants · constants) := by
  induction statements generalizing pass with
  | nil => rfl
  | cons stmt rest ih =>
      rw [List.foldlM_cons, List.foldlM_cons, toOption_bind, toOption_bind,
        add_withConstants options pass constants (h stmt List.mem_cons_self)]
      cases pass.add options stmt with
      | error e => rfl
      | ok mid => exact ih (fun s hs => h s (List.mem_cons_of_mem _ hs)) mid

/-- Where no name is defined twice, the first pass is that of the other statements, with the
constants put into it. -/
theorem foldlM_constants {options : AssemblerOptions} {statements : List Statement}
    {pass : FirstPassResult} (hnodup : (definedNames statements).Nodup)
    (hfresh : ∀ name ∈ definedNames statements, OrderedMap.find pass.symbols name = none ∧
      OrderedMap.find pass.constants name = none) :
    (statements.foldlM (FirstPassResult.add options) pass).toOption =
      ((statements.filter fun stmt => !stmt.isEqu).foldlM (FirstPassResult.add options)
        pass).toOption.map
        (FirstPassResult.withConstants · (pass.constants ++ constantsOf statements)) := by
  induction statements generalizing pass with
  | nil =>
      show some pass = some (pass.withConstants (pass.constants ++ []))
      rw [List.append_nil]
      rfl
  | cons stmt rest ih =>
      have hnames : definedNames (stmt :: rest) = stmt.name?.toList ++ definedNames rest :=
        filterMap_cons_eq _ _ _
      have hentries : constantsOf (stmt :: rest) = stmt.constant?.toList ++ constantsOf rest :=
        filterMap_cons_eq _ _ _
      rw [hnames] at hnodup hfresh
      -- the names of the rest are new beside that of the first statement
      rcases List.nodup_append.mp hnodup with ⟨-, hrest, hapart⟩
      have hlater := fun name hname => hfresh name (List.mem_append_right _ hname)
      by_cases hequ : stmt.isEqu = true
      · cases stmt with
        | equ decl =>
            have hnew := hfresh decl.name List.mem_cons_self
            have hadd : pass.add options (.equ decl) =
                .ok (pass.withConstants (pass.constants ++ [(decl.name, decl.value)])) := by
              unfold FirstPassResult.add FirstPassResult.addConstant throwIf
              simp only
              rw [hnew.1, hnew.2]
              rfl
            -- the constant stays in front of those of the rest
            rw [List.foldlM_cons, hadd]
            show (rest.foldlM (FirstPassResult.add options) _).toOption = _
            rw [ih hrest]
            · have hplain : ∀ s ∈ rest.filter fun stmt => !stmt.isEqu, s.isEqu = false := by
                intro s hs
                exact Bool.not_eq_true' _ |>.mp (List.mem_filter.mp hs).2
              rw [foldlM_withConstants options _ hplain, Option.map_map, hentries,
                List.filter_cons_of_neg (fun h => Bool.false_ne_true h)]
              congr 1
              funext q
              show q.withConstants (pass.constants ++ [(decl.name, decl.value)] ++ _) = _
              rw [List.append_assoc]
              rfl
            · intro name hname
              have hne : name ≠ decl.name := fun heq =>
                hapart decl.name List.mem_cons_self name hname heq.symm
              exact ⟨(hlater name hname).1, OrderedMap.find_append_of_ne (hlater name hname).2 hne⟩
        | label decl => cases hequ
        | instruction stmt => cases hequ
        | directive stmt => cases hequ
      · have hfalse : stmt.isEqu = false := Bool.not_eq_true _ |>.mp hequ
        have hconstant : stmt.constant? = none := by
          unfold Statement.isEqu at hfalse
          exact Option.isNone_iff_eq_none.mp (Option.isSome_eq_false_iff.mp hfalse)
        rw [List.filter_cons_of_pos (by rw [hfalse]; rfl), List.foldlM_cons, List.foldlM_cons,
          toOption_bind, toOption_bind]
        cases hmid : pass.add options stmt with
        | error e => rfl
        | ok mid =>
            -- the statement defines no constant, so the later names stay new in both runs
            have hdefines := defines_add hmid
            have hconstants : mid.constants = pass.constants := by
              rw [hdefines.constants, hconstant]
              exact List.append_nil _
            show (rest.foldlM (FirstPassResult.add options) mid).toOption =
              ((rest.filter fun stmt => !stmt.isEqu).foldlM (FirstPassResult.add options)
                mid).toOption.map _
            rw [ih hrest, hconstants, hentries, hconstant]
            · rfl
            · intro name hname
              refine ⟨?_, by rw [hconstants]; exact (hlater name hname).2⟩
              rw [hdefines.symbols]
              cases stmt with
              | label decl =>
                  have hne : name ≠ decl.name := fun heq =>
                    hapart decl.name List.mem_cons_self name hname heq.symm
                  exact OrderedMap.find_append_of_ne (hlater name hname).1 hne
              | equ decl => cases hconstant
              | instruction stmt => exact (List.append_nil _).symm ▸ (hlater name hname).1
              | directive stmt => exact (List.append_nil _).symm ▸ (hlater name hname).1

section Encode

variable {Path : Type} (host : Host Path) (sourceFile : Text) (options : AssemblerOptions)
  (pass : FirstPassResult)

/-- The second pass only looks constants up. -/
theorem encode_withConstants {constants : List (Text × BitVec 32)}
    (h : ∀ name, OrderedMap.find constants name = OrderedMap.find pass.constants name) :
    encode host sourceFile options (pass.withConstants constants) =
      encode host sourceFile options pass := by
  have hbyte : resolveByteOperand pass.symbols constants =
      resolveByteOperand pass.symbols pass.constants := by
    funext operand
    unfold resolveByteOperand
    rw [h]
  have hword : resolveWordOperand pass.symbols constants =
      resolveWordOperand pass.symbols pass.constants := by
    funext operand
    unfold resolveWordOperand
    rw [h]
  have hrelative : resolveRelativeOperand pass.symbols constants =
      resolveRelativeOperand pass.symbols pass.constants := by
    funext operand address
    unfold resolveRelativeOperand resolveTarget
    rw [h]
  have hsymbols : (pass.withConstants constants).symbols = pass.symbols := rfl
  have hconstants : (pass.withConstants constants).constants = constants := rfl
  have hbytes : ∀ (item : Emittable) (operands : List Operand) (encoding : Encoding) (i : Nat),
      Encoding.addBytes host sourceFile options (pass.withConstants constants) item encoding i
        operands = Encoding.addBytes host sourceFile options pass item encoding i operands := by
    intro item operands
    induction operands with
    | nil => exact fun _ _ => rfl
    | cons operand operands ih =>
        intro encoding i
        unfold Encoding.addBytes
        simp only [hsymbols, hconstants, hbyte, ih]
  have hadd : Encoding.add host sourceFile options (pass.withConstants constants) =
      Encoding.add host sourceFile options pass := by
    funext encoding item
    unfold Encoding.add Encoding.addInstruction
    simp only [hsymbols, hconstants, hbyte, hword, hrelative, hbytes]
  unfold encode
  rw [hadd]
  rfl

end Encode

/-! ## Reordering -/

/-- The constants of one list of statements are those of the other in some order, and the other
statements are the same ones in the same order; the lines on which they stand may differ. -/
structure Reordered (statements statements' : List Statement) : Prop where
  others : (statements.map Statement.bare).filter (fun stmt => !stmt.isEqu) =
    (statements'.map Statement.bare).filter fun stmt => !stmt.isEqu
  constants : ((statements.map Statement.bare).filter Statement.isEqu).Perm
    ((statements'.map Statement.bare).filter Statement.isEqu)

theorem definedNames_bare (statements : List Statement) :
    definedNames (statements.map Statement.bare) = definedNames statements := by
  unfold definedNames
  rw [List.filterMap_map]
  congr 1
  funext stmt
  cases stmt <;> rfl

/-- The constants with a name, as a part of the names. -/
theorem constantsOf_keys (statements : List Statement) :
    (constantsOf statements).map Prod.fst = definedNames (statements.filter Statement.isEqu) := by
  unfold constantsOf definedNames
  induction statements with
  | nil => rfl
  | cons stmt rest ih =>
      cases stmt with
      | equ decl => exact congrArg (decl.name :: ·) ih
      | _ => exact ih

theorem constantsOf_filter (statements : List Statement) :
    constantsOf (statements.filter Statement.isEqu) = constantsOf statements := by
  unfold constantsOf
  rw [List.filterMap_filter]
  congr 1
  funext stmt
  cases stmt <;> rfl

theorem perm_of_reordered {s t : List Statement}
    (hothers : s.filter (fun stmt => !stmt.isEqu) = t.filter fun stmt => !stmt.isEqu)
    (hconstants : (s.filter Statement.isEqu).Perm (t.filter Statement.isEqu)) : s.Perm t := by
  have hs := List.filter_append_perm Statement.isEqu s
  have ht := List.filter_append_perm Statement.isEqu t
  rw [hothers] at hs
  exact hs.symm.trans ((hconstants.append_right _).trans ht)

/-- Where no name is defined twice, the ROM does not depend on the places of the constants. -/
theorem romOf_reordered {Path : Type} (host : Host Path) (sourceFile : Text)
    (options : AssemblerOptions) {statements statements' : List Statement}
    (hnodup : (definedNames statements).Nodup) (h : Reordered statements statements') :
    romOf host sourceFile options statements' = romOf host sourceFile options statements := by
  rw [← romOf_bare host sourceFile options statements,
    ← romOf_bare host sourceFile options statements']
  rw [← definedNames_bare] at hnodup
  have hothers := h.others
  have hconstants := h.constants
  generalize statements.map Statement.bare = s at hnodup hothers hconstants
  generalize statements'.map Statement.bare = t at hothers hconstants
  -- both orders define the same names, each once
  have hnodup' : (definedNames t).Nodup :=
    (((perm_of_reordered hothers hconstants).filterMap _).nodup_iff).mp hnodup
  have hkeys : ((constantsOf s).map Prod.fst).Nodup := by
    rw [constantsOf_keys]
    exact hnodup.sublist (List.filter_sublist.filterMap _)
  have hperm : (constantsOf s).Perm (constantsOf t) := by
    rw [← constantsOf_filter s, ← constantsOf_filter t]
    exact hconstants.filterMap _
  have hempty : ∀ names : List Text, ∀ name ∈ names,
      OrderedMap.find ([] : List (Text × Word)) name = none ∧
        OrderedMap.find ([] : List (Text × BitVec 32)) name = none := fun _ _ _ => ⟨rfl, rfl⟩
  unfold romOf assembleProgram firstPass
  rw [toOption_bind, toOption_bind]
  simp only
  rw [foldlM_constants hnodup (hempty _), foldlM_constants hnodup' (hempty _), hothers]
  cases (t.filter fun stmt => !stmt.isEqu).foldlM (FirstPassResult.add options)
      { maxAddress := options.origin, cursor := options.origin.toNat } with
  | error e => rfl
  | ok pass =>
      show (encode host sourceFile options (pass.withConstants (constantsOf t))).toOption.map _ =
        (encode host sourceFile options (pass.withConstants (constantsOf s))).toOption.map _
      -- and look up the same constants
      have hlookup : ∀ name, OrderedMap.find (constantsOf t) name =
          OrderedMap.find (pass.withConstants (constantsOf s)).constants name :=
        fun name => (OrderedMap.find_perm hperm hkeys name).symm
      have hencode := encode_withConstants host sourceFile options
        (pass.withConstants (constantsOf s)) hlookup
      rw [← hencode]
      rfl

/-! ## Accepted programs -/

/-- The names of an accepted program have one meaning each, and its ROM does not depend on where its
constants stand. -/
structure Unambiguous {Path : Type} (host : Host Path) (filename : Text)
    (options : AssemblerOptions) (program : Program) (result : AssemblerResult) : Prop where
  distinct : (definedNames program.statements).Nodup
  reorder : ∀ statements, Reordered program.statements statements →
    ∃ result', assembleProgram host { statements } filename options = .ok result' ∧
      result'.rom = result.rom

/-- The names of an accepted program are unambiguous just when no label stands behind a constant of
its name. -/
theorem unambiguous_iff {Path : Type} [DecidableEq Path] {host : Host Path} {levels : Nat}
    {source filename : Text} {options : AssemblerOptions} {program : Program}
    {result : AssemblerResult}
    (hexpand : expand host levels source filename = some (.ok program))
    (h : assemble host levels source filename options = some (.ok result)) :
    Unambiguous host filename options program result ↔ NoLabelAfterEqu program.statements := by
  rcases assemble_eq_ok h with ⟨program', pass, hexpand', hpass, hencode⟩
  rw [hexpand'] at hexpand
  cases hexpand
  constructor
  · exact fun hunambiguous => noLabelAfterEqu_of_nodup hunambiguous.distinct
  · intro hlabels
    have hnodup := nodup_of_noLabelAfterEqu hpass hlabels
    refine ⟨hnodup, fun statements hreordered => ?_⟩
    have hrom : romOf host filename options program.statements = some result.rom := by
      unfold romOf assembleProgram
      rw [hpass]
      show Option.map _ (encode host filename options pass).toOption = _
      rw [hencode]
      rfl
    rw [← romOf_reordered host filename options hnodup hreordered] at hrom
    unfold romOf at hrom
    cases hresult : assembleProgram host { statements } filename options with
    | error e =>
        rw [hresult] at hrom
        cases hrom
    | ok result' =>
        rw [hresult] at hrom
        exact ⟨result', rfl, Option.some.inj hrom⟩

def constantSource : Text := ".equ two, 2\nstart: lda #two\n".toList

/-- A constant and a label of another name. -/
def constantProgram : Program :=
  match expand flatHost 1 constantSource [] with
  | some (.ok program) => program
  | _ => {}

def constantResult : AssemblerResult :=
  match assemble flatHost 1 constantSource [] { romSize := 8 } with
  | some (.ok result) => result
  | _ => ⟨{}, [], []⟩

theorem unambiguous_constant :
    Unambiguous flatHost [] { romSize := 8 } constantProgram constantResult ↔
      NoLabelAfterEqu constantProgram.statements := by
  have hexpand : expand flatHost 1 constantSource [] = some (.ok constantProgram) := by
    decide +kernel
  have hassemble : assemble flatHost 1 constantSource [] { romSize := 8 } =
      some (.ok constantResult) := by
    decide +kernel
  exact unambiguous_iff hexpand hassemble

/-- A label behind a constant of its name. -/
def hiddenSource : Text := ".equ a, 1\na: lda #a\n".toList

def hiddenProgram : Program :=
  match expand flatHost 1 hiddenSource [] with
  | some (.ok program) => program
  | _ => {}

def hiddenResult : AssemblerResult :=
  match assemble flatHost 1 hiddenSource [] { romSize := 8 } with
  | some (.ok result) => result
  | _ => ⟨{}, [], []⟩

theorem not_unambiguous_hidden :
    expand flatHost 1 hiddenSource [] = some (.ok hiddenProgram) ∧
      assemble flatHost 1 hiddenSource [] { romSize := 8 } = some (.ok hiddenResult) ∧
      ¬Unambiguous flatHost [] { romSize := 8 } hiddenProgram hiddenResult := by
  refine ⟨by decide +kernel, by decide +kernel, fun h => ?_⟩
  exact absurd h.distinct (by decide +kernel)

end Irata2.Assembler
