import Irata2.Assembler.Names

/-!
# The programs that the assembler accepts

Every check of the two passes, as a condition on the statements at the addresses where the layout
places them.  The names mean the same to every statement, whether they are defined before it or
behind it.
-/

namespace Irata2.Assembler

open Library

/-! ## Admitted statements -/

/-- The labels of a program with the addresses at which they are placed. -/
def symbolsOf (origin : Nat) (statements : List Statement) : List (Text × Word) :=
  (placed origin statements).filterMap fun p => p.2.symbol? p.1

/-- What the operands of a program mean. -/
def meaningOf (origin : Nat) (statements : List Statement) : Operand → Option Nat :=
  (FirstPassResult.mk [] (symbolsOf origin statements) (constantsOf statements) 0 0).value

/-- A run of bytes lies in the ROM and in the address space. -/
structure Inside (options : AssemblerOptions) (a size : Nat) : Prop where
  origin : options.origin.toNat ≤ a
  rom : a + size ≤ options.origin.toNat + options.romSize.toNat
  space : a + size ≤ 2 ^ 16

/-- A statement for which an address is good, given what the operands mean. -/
inductive Admitted (options : AssemblerOptions) (value : Operand → Option Nat) (a : Nat) :
    Statement → Prop
  | label (decl : LabelDecl) (h : a ≤ 0xFFFF) : Admitted options value a (.label decl)
  | equ (decl : EquDecl) : Admitted options value a (.equ decl)
  | included {stmt : DirectiveStmt} (htype : stmt.type = .include) :
      Admitted options value a (.directive stmt)
  | org {stmt : DirectiveStmt} {operand : Operand} (htype : stmt.type = .org)
      (hoperand : stmt.operands = [operand]) (hkind : operand.kind = .number)
      (hlow : options.origin.toNat ≤ operand.number.toNat)
      (hhigh : operand.number.toNat ≤ 0xFFFF) : Admitted options value a (.directive stmt)
  | bytes {stmt : DirectiveStmt} {values : List Byte} (htype : stmt.type = .byte)
      (hne : stmt.operands ≠ []) (h : Encodes value a (.directive stmt) values)
      (hinside : Inside options a values.length) : Admitted options value a (.directive stmt)
  | instruction {stmt : InstructionStmt} {values : List Byte}
      (h : Encodes value a (.instruction stmt) values)
      (hinside : Inside options a values.length) : Admitted options value a (.instruction stmt)

/-- Two statements of one name are a constant and a label behind it. -/
def FreshNames (statements : List Statement) : Prop :=
  statements.Pairwise fun s t => ∀ name, s.name? = some name → t.name? = some name →
    s.isEqu = true ∧ t.isEqu = false

theorem length_of_encodes_instruction {value : Operand → Option Nat} {a : Nat}
    {stmt : InstructionStmt} {bytes : List Byte} (h : Encodes value a (.instruction stmt) bytes) :
    ∃ info, selectInstruction stmt = .ok info ∧
      bytes.length = 1 + info.addressingMode.operands := by
  cases h with
  | implied hinfo hmode => exact ⟨_, hinfo, by rw [hmode]; rfl⟩
  | byte hinfo hmode => exact ⟨_, hinfo, by rw [hmode]; rfl⟩
  | relative hinfo hmode => exact ⟨_, hinfo, by rw [hmode]; rfl⟩
  | word hinfo hmode => exact ⟨_, hinfo, by rw [hmode]; rfl⟩

theorem length_of_encodes_bytes {value : Operand → Option Nat} {a : Nat} {stmt : DirectiveStmt}
    {bytes : List Byte} (htype : stmt.type = .byte) (h : Encodes value a (.directive stmt) bytes) :
    bytes.length = stmt.operands.length :=
  h.length.trans (if_pos htype)

/-- A statement that emits bytes is admitted with them. -/
theorem Admitted.encodes_of_item {options : AssemblerOptions} {value : Operand → Option Nat}
    {a : Nat} {stmt : Statement} {item : Emittable} (h : Admitted options value a stmt)
    (hitem : stmt.item? a = some item) :
    ∃ values, Encodes value a stmt values ∧ 0 < values.length ∧ Inside options a values.length := by
  cases h with
  | label | equ => cases hitem
  | @included stmt htype =>
      have hnone : Statement.item? a (.directive stmt) = none := if_neg (by rw [htype]; decide)
      cases hnone.symm.trans hitem
  | @org stmt operand htype =>
      have hnone : Statement.item? a (.directive stmt) = none := if_neg (by rw [htype]; decide)
      cases hnone.symm.trans hitem
  | bytes htype hne hencodes hinside =>
      have hlength := length_of_encodes_bytes htype hencodes
      exact ⟨_, hencodes, hlength ▸ List.length_pos_of_ne_nil hne, hinside⟩
  | instruction hencodes hinside =>
      obtain ⟨info, -, hlength⟩ := length_of_encodes_instruction hencodes
      exact ⟨_, hencodes, by omega, hinside⟩

/-! ## One meaning -/

/-- What an operand means depends on the tables of names alone. -/
theorem value_congr {pass pass' : FirstPassResult} (hsymbols : pass.symbols = pass'.symbols)
    (hconstants : pass.constants = pass'.constants) : pass.value = pass'.value := by
  funext operand
  unfold FirstPassResult.value
  rw [hsymbols, hconstants]

/-- An operand is one byte at most. -/
theorem rightUnique_byte {value : Operand → Option Nat} :
    Relator.RightUnique fun (operand : Operand) (b : Byte) =>
      ∃ v, value operand = some v ∧ v ≤ 0xFF ∧ b = BitVec.ofNat 8 v := by
  rintro operand b b' ⟨v, hv, -, rfl⟩ ⟨v', hv', -, rfl⟩
  cases hv.symm.trans hv'
  rfl

/-- A statement becomes the same bytes however it is read. -/
theorem Encodes.unique {value : Operand → Option Nat} {a : Nat} {stmt : Statement}
    {bytes bytes' : List Byte} (h : Encodes value a stmt bytes) (h' : Encodes value a stmt bytes') :
    bytes = bytes' := by
  cases h with
  | label => cases h'; rfl
  | equ => cases h'; rfl
  | silent h =>
      cases h' with
      | silent => rfl
      | bytes htype => exact absurd htype h
  | bytes htype h =>
      cases h' with
      | silent h' => exact absurd htype h'
      | bytes _ h' =>
          exact rightUnique_byte.forall₂ h h'
  -- the four forms of an instruction exclude one another: by the number of operand bytes, and by
  -- the relative mode
  | implied h hmode =>
      cases h' with
      | implied h' =>
          cases h.symm.trans h'
          rfl
      | byte h' hmode' =>
          cases h.symm.trans h'
          omega
      | relative h' hmode' =>
          cases h.symm.trans h'
          rw [hmode'] at hmode
          cases hmode
      | word h' hmode' =>
          cases h.symm.trans h'
          omega
  | byte h hmode hrel hoperand hvalue =>
      cases h' with
      | implied h' hmode' =>
          cases h.symm.trans h'
          omega
      | byte h' _ _ hoperand' hvalue' =>
          cases h.symm.trans h'
          cases hoperand.symm.trans hoperand'
          cases hvalue.symm.trans hvalue'
          rfl
      | relative h' hmode' =>
          cases h.symm.trans h'
          exact absurd hmode' hrel
      | word h' hmode' =>
          cases h.symm.trans h'
          omega
  | relative h hmode hoperand hvalue _ hd =>
      cases h' with
      | implied h' hmode' =>
          cases h.symm.trans h'
          rw [hmode] at hmode'
          cases hmode'
      | byte h' _ hrel' =>
          cases h.symm.trans h'
          exact absurd hmode hrel'
      | relative h' _ hoperand' hvalue' _ hd' =>
          cases h.symm.trans h'
          cases hoperand.symm.trans hoperand'
          cases hvalue.symm.trans hvalue'
          -- two offsets that lead to one target are the same
          congr 3
          omega
      | word h' hmode' =>
          cases h.symm.trans h'
          rw [hmode] at hmode'
          cases hmode'
  | word h hmode hoperand hvalue =>
      cases h' with
      | implied h' hmode' =>
          cases h.symm.trans h'
          omega
      | byte h' hmode' =>
          cases h.symm.trans h'
          omega
      | relative h' hmode' =>
          cases h.symm.trans h'
          rw [hmode'] at hmode
          cases hmode
      | word h' _ hoperand' hvalue' =>
          cases h.symm.trans h'
          cases hoperand.symm.trans hoperand'
          cases hvalue.symm.trans hvalue'
          rfl

theorem mem_of_mem_placed {a : Nat} {statements : List Statement} {p : Nat × Statement}
    (h : p ∈ placed a statements) : p.2 ∈ statements := by
  induction statements generalizing a with
  | nil => cases h
  | cons stmt rest ih =>
      obtain rfl | h := List.mem_cons.mp h
      · exact List.mem_cons_self
      · exact List.mem_cons_of_mem _ (ih h)

/-! ## The first pass -/

theorem exists_emit {pass : FirstPassResult} {item : Emittable} {size : Nat} (hpos : 0 < size)
    (hfits : pass.cursor + size ≤ 2 ^ 16) :
    ∃ pass', pass.emit item size = .ok pass' ∧ ∀ b, pass.maxAddress.toNat ≤ b →
      pass.cursor + size ≤ b + 1 → pass'.maxAddress.toNat ≤ b := by
  have hlast : lastByte pass.cursor size = pass.cursor + size - 1 := by
    unfold lastByte
    omega
  have hemit : pass.emit item size = .ok { pass with
      items := pass.items ++ [item]
      maxAddress := updateMaxAddress pass.maxAddress (lastByte pass.cursor size)
      cursor := nextCursor pass.cursor size } := by
    unfold FirstPassResult.emit
    rw [seq_eq_ok, validateCursor_eq_ok, seq_eq_ok, validateCursor_eq_ok]
    exact ⟨by omega, by omega, rfl⟩
  refine ⟨_, hemit, ?_⟩
  intro b hb hle
  rw [hlast]
  unfold updateMaxAddress
  split
  · rw [BitVec.toNat_ofNat, Nat.mod_eq_of_lt (by omega)]
    omega
  · exact hb

/-- The first pass accepts an admitted statement with a new name, and does not leave the ROM. -/
theorem exists_add {options : AssemblerOptions} {value : Operand → Option Nat}
    {pass : FirstPassResult} {stmt : Statement}
    (hname : ∀ name, stmt.name? = some name → OrderedMap.find pass.symbols name = none)
    (hconstant : ∀ e, stmt.constant? = some e → OrderedMap.find pass.constants e.1 = none)
    (hmax : pass.maxAddress.toNat ≤ options.origin.toNat + options.romSize.toNat)
    (h : Admitted options value pass.cursor stmt) :
    ∃ pass', pass.add options stmt = .ok pass' ∧
      pass'.maxAddress.toNat ≤ options.origin.toNat + options.romSize.toNat := by
  cases h with
  | label decl hle =>
      have hadd : pass.addLabel decl = .ok { pass with
          symbols := pass.symbols ++ [(decl.name, BitVec.ofNat 16 pass.cursor)] } := by
        unfold FirstPassResult.addLabel
        rw [seq_eq_ok, throwIf_eq_ok, seq_eq_ok, validateCursor_eq_ok, hname decl.name rfl]
        exact ⟨Bool.false_ne_true, hle, rfl⟩
      exact ⟨_, hadd, hmax⟩
  | equ decl =>
      have hadd : pass.addConstant decl = .ok { pass with
          constants := pass.constants ++ [(decl.name, decl.value)] } := by
        unfold FirstPassResult.addConstant
        rw [seq_eq_ok, throwIf_eq_ok, seq_eq_ok, throwIf_eq_ok, hname decl.name rfl,
          hconstant (decl.name, decl.value) rfl]
        exact ⟨Bool.false_ne_true, Bool.false_ne_true, rfl⟩
      exact ⟨_, hadd, hmax⟩
  | @included stmt htype =>
      have hadd : pass.add options (.directive stmt) = .ok pass := by
        unfold FirstPassResult.add
        simp only [htype]
      exact ⟨_, hadd, hmax⟩
  | @org stmt operand htype hoperand hkind hlow hhigh =>
      have hadd : pass.add options (.directive stmt) =
          .ok { pass with cursor := operand.number.toNat } := by
        unfold FirstPassResult.add
        simp only [htype]
        unfold FirstPassResult.addOrg
        simp only [hoperand]
        rw [seq_eq_ok, throwIf_eq_ok, seq_eq_ok, throwIf_eq_ok, seq_eq_ok, throwIf_eq_ok]
        exact ⟨not_not.mpr hkind, Nat.not_lt.mpr hhigh, Nat.not_lt.mpr hlow, rfl⟩
      exact ⟨_, hadd, hmax⟩
  | @bytes stmt values htype hne hencodes hinside =>
      -- the bytes fit, so neither the cursor nor the largest address overflows
      have hlength := length_of_encodes_bytes htype hencodes
      have hpos := List.length_pos_of_ne_nil hne
      have hspace := hinside.space
      have hrom := hinside.rom
      rw [hlength] at hspace hrom
      have hcut : stmt.operands.length % 2 ^ 32 = stmt.operands.length :=
        Nat.mod_eq_of_lt (by omega)
      obtain ⟨pass', hpass', hbound⟩ := exists_emit hpos hspace
      have hadd : pass.add options (.directive stmt) = .ok pass' := by
        unfold FirstPassResult.add
        simp only [htype]
        unfold FirstPassResult.addBytes
        rw [seq_eq_ok, throwIf_eq_ok, List.isEmpty_iff, hcut]
        exact ⟨hne, hpass'⟩
      exact ⟨pass', hadd, hbound _ hmax (by omega)⟩
  | @instruction stmt values hencodes hinside =>
      obtain ⟨info, hinfo, hlength⟩ := length_of_encodes_instruction hencodes
      have hspace := hinside.space
      have hrom := hinside.rom
      rw [hlength] at hspace hrom
      obtain ⟨pass', hpass', hbound⟩ := exists_emit (by omega) hspace
      have hadd : pass.addInstruction stmt = .ok pass' := by
        unfold FirstPassResult.addInstruction
        rw [bind_eq_ok]
        exact ⟨info, hinfo, hpass'⟩
      exact ⟨pass', hadd, hbound _ hmax (by omega)⟩

/-- An admitted statement leaves the cursor in the address space. -/
theorem Admitted.next_le {options : AssemblerOptions} {value : Operand → Option Nat} {a : Nat}
    {stmt : Statement} (h : Admitted options value a stmt) (ha : a ≤ 2 ^ 16) :
    stmt.next a ≤ 2 ^ 16 := by
  cases h with
  | label | equ => exact ha
  | @included stmt htype =>
      unfold Statement.next Statement.size
      simp only [htype]
      exact ha
  | org htype hoperand _ _ hhigh =>
      unfold Statement.next
      simp only [htype, hoperand]
      omega
  | bytes htype _ hencodes hinside =>
      have hspace := hinside.space
      have hlength := hencodes.length
      unfold Statement.next
      simp only [htype]
      omega
  | instruction hencodes hinside =>
      have hspace := hinside.space
      have hlength := hencodes.length
      show a + Statement.size (.instruction _) ≤ _
      omega

/-- The names of the other statements are still new behind the first one. -/
theorem fresh_of_add {options : AssemblerOptions} {pass mid : FirstPassResult} {stmt : Statement}
    {rest : List Statement} (hmid : pass.add options stmt = .ok mid)
    (hfresh : FreshNames (stmt :: rest))
    (hname : ∀ s ∈ stmt :: rest, ∀ name, s.name? = some name →
      OrderedMap.find pass.symbols name = none)
    (hconstant : ∀ s ∈ stmt :: rest, ∀ e, s.constant? = some e →
      OrderedMap.find pass.constants e.1 = none) :
    (∀ s ∈ rest, ∀ name, s.name? = some name → OrderedMap.find mid.symbols name = none) ∧
      ∀ s ∈ rest, ∀ e, s.constant? = some e → OrderedMap.find mid.constants e.1 = none := by
  have hdefines := defines_add hmid
  have hhead := (List.pairwise_cons.mp hfresh).1
  constructor
  · intro s hs name hsome
    have hold := hname s (List.mem_cons_of_mem _ hs) name hsome
    rw [hdefines.symbols]
    cases stmt with
    | label decl =>
        apply OrderedMap.find_append_of_ne hold
        intro heq
        -- a label hides its name from every statement behind it
        have hequ := (hhead s hs decl.name rfl (heq ▸ hsome)).1
        exact Bool.false_ne_true hequ
    | equ | instruction | directive =>
        show OrderedMap.find (pass.symbols ++ []) name = none
        rw [List.append_nil]
        exact hold
  · intro s hs e hsome
    have hold := hconstant s (List.mem_cons_of_mem _ hs) e hsome
    rw [hdefines.constants]
    cases stmt with
    | equ decl =>
        apply OrderedMap.find_append_of_ne hold
        intro heq
        cases s with
        | equ decl' =>
            cases hsome
            have hlabel := (hhead _ hs decl.name rfl (congrArg some heq)).2
            exact Bool.false_ne_true hlabel.symm
        | label | instruction | directive => cases hsome
    | label | instruction | directive =>
        show OrderedMap.find (pass.constants ++ []) e.1 = none
        rw [List.append_nil]
        exact hold

/-- The first pass accepts a program of admitted statements. -/
theorem exists_foldlM_add {options : AssemblerOptions} {value : Operand → Option Nat}
    {statements : List Statement} {pass : FirstPassResult} (hcursor : pass.cursor ≤ 2 ^ 16)
    (hfresh : FreshNames statements)
    (hname : ∀ s ∈ statements, ∀ name, s.name? = some name →
      OrderedMap.find pass.symbols name = none)
    (hconstant : ∀ s ∈ statements, ∀ e, s.constant? = some e →
      OrderedMap.find pass.constants e.1 = none)
    (hmax : pass.maxAddress.toNat ≤ options.origin.toNat + options.romSize.toNat)
    (h : ∀ p ∈ placed pass.cursor statements, Admitted options value p.1 p.2) :
    ∃ pass', statements.foldlM (FirstPassResult.add options) pass = .ok pass' ∧
      pass'.maxAddress.toNat ≤ options.origin.toNat + options.romSize.toNat := by
  induction statements generalizing pass with
  | nil => exact ⟨pass, rfl, hmax⟩
  | cons stmt rest ih =>
      have hstmt : Admitted options value pass.cursor stmt :=
        h (pass.cursor, stmt) List.mem_cons_self
      obtain ⟨mid, hmid, hmidMax⟩ := exists_add (hname stmt List.mem_cons_self)
        (hconstant stmt List.mem_cons_self) hmax hstmt
      have hnext := hstmt.next_le hcursor
      have hmidCursor : mid.cursor = stmt.next pass.cursor := by
        rw [(advances_add (by omega) hmid).cursor]
        exact Nat.mod_eq_of_lt (by omega)
      obtain ⟨hnames, hconstants⟩ := fresh_of_add hmid hfresh hname hconstant
      obtain ⟨pass', hpass', hbound⟩ := ih (by omega) (List.pairwise_cons.mp hfresh).2 hnames
        hconstants hmidMax (fun p hp => h p (List.mem_cons_of_mem _ (hmidCursor ▸ hp)))
      exact ⟨pass', foldlM_cons_eq_ok.mpr ⟨mid, hmid, hpass'⟩, hbound⟩

/-! ## The second pass -/

section Encode

variable (pass : FirstPassResult)

theorem resolveRelativeOperand_of_value {operand : Operand} {address : Word} {v : Nat} {d : Int}
    (hv : pass.value operand = some v) (hle : v ≤ 0xFFFF)
    (hd : (v : Int) = address.toNat + 2 + d) (hlow : -128 ≤ d) (hhigh : d ≤ 127) :
    ∃ b, resolveRelativeOperand pass.symbols pass.constants operand address = .ok b := by
  have htarget := (resolveTarget_eq_ok pass).mpr ⟨hv, hle⟩
  unfold resolveRelativeOperand
  rw [htarget]
  have hrange : ¬((v : Int) - (address.toNat + 2) < -128 ∨
      (v : Int) - (address.toNat + 2) > 127) := by
    omega
  exact ⟨_, seq_eq_ok.mpr ⟨throwIf_eq_ok.mpr hrange, rfl⟩⟩

variable {Path : Type} (host : Host Path) (sourceFile : Text) (options : AssemblerOptions)

theorem exists_addBytes {item : Emittable} {operands : List Operand} {values : List Byte} {i : Nat}
    {encoding : Encoding} (hsize : encoding.rom.length < 2 ^ 32)
    (hfits : item.address.toNat - options.origin.toNat + i + operands.length ≤
      encoding.rom.length)
    (h : List.Forall₂ (fun operand b => ∃ v, pass.value operand = some v ∧ v ≤ 0xFF ∧
      b = BitVec.ofNat 8 v) operands values) :
    ∃ encoding',
      Encoding.addBytes host sourceFile options pass item encoding i operands = .ok encoding' := by
  induction h generalizing i encoding with
  | nil => exact ⟨encoding, rfl⟩
  | @cons operand b operands values hb _ ih =>
      have hresolve := (resolveByteOperand_eq_ok pass).mpr hb
      rw [List.length_cons] at hfits
      have htarget : (item.address.toNat - options.origin.toNat + i % 2 ^ 32) % 2 ^ 32 =
          item.address.toNat - options.origin.toNat + i := by
        rw [Nat.mod_eq_of_lt (show i < 2 ^ 32 by omega)]
        exact Nat.mod_eq_of_lt (by omega)
      -- the byte leaves the ROM as long as it was
      have hlength : ∀ target text, ((encoding.store target b).addRecord host sourceFile item.span
          (BitVec.ofNat 16 (item.address.toNat + i)) target text).rom.length =
          encoding.rom.length := by
        intro target text
        rw [rom_addRecord]
        exact List.length_set
      have hrest := fun target => @ih (i + 1) ((encoding.store target b).addRecord host sourceFile
        item.span (BitVec.ofNat 16 (item.address.toNat + i)) target item.text)
        (by rw [hlength]; exact hsize) (by rw [hlength]; omega)
      obtain ⟨encoding', hrest⟩ := hrest (item.address.toNat - options.origin.toNat + i)
      refine ⟨encoding', ?_⟩
      unfold Encoding.addBytes
      simp only [htarget]
      rw [seq_eq_ok, throwIf_eq_ok, bind_eq_ok]
      exact ⟨by omega, b, hresolve, hrest⟩

theorem exists_addInstruction {encoding : Encoding} {a : Nat} {item : Emittable}
    {stmt : InstructionStmt} {info : Isa.InstructionInfo} {values : List Byte}
    (hinfo : selectInstruction stmt = .ok info)
    (hmode : item.addressingMode = info.addressingMode)
    (hcount : item.operandBytes = info.addressingMode.operands)
    (hoperands : item.operands = stmt.operands) (haddress : item.address.toNat = a)
    (hfits : a - options.origin.toNat + values.length ≤ encoding.rom.length)
    (h : Encodes pass.value a (.instruction stmt) values) :
    ∃ encoding',
      encoding.addInstruction host sourceFile options pass item = .ok encoding' := by
  have hlength : (encoding.write host sourceFile options item 0 item.opcode).rom.length =
      encoding.rom.length := by
    rw [rom_write]
    exact List.length_set
  unfold Encoding.addInstruction
  simp only [haddress, hcount, hmode, hoperands]
  generalize encoding.write host sourceFile options item 0 item.opcode = first at hlength
  cases h with
  | implied h hzero =>
      cases hinfo.symm.trans h
      rw [if_neg (by omega), if_neg (by omega), if_neg (not_not.mpr hzero)]
      exact ⟨first, rfl⟩
  | byte h hone hrel hoperand hvalue hv =>
      cases hinfo.symm.trans h
      have hresolve := (resolveByteOperand_eq_ok pass).mpr ⟨_, hvalue, hv, rfl⟩
      rw [if_pos hone]
      simp only [hoperand]
      rw [if_neg hrel, hresolve]
      exact ⟨_, seq_eq_ok.mpr ⟨throwIf_eq_ok.mpr (by
        rw [List.length_cons] at hfits
        simp only [List.length_singleton] at hfits
        omega), rfl⟩⟩
  | relative h hrel hoperand hvalue hv hd hlow hhigh =>
      cases hinfo.symm.trans h
      rw [← haddress] at hd
      obtain ⟨b, hresolve⟩ := resolveRelativeOperand_of_value pass hvalue hv hd hlow hhigh
      rw [if_pos (by rw [hrel]; rfl)]
      simp only [hoperand]
      rw [if_pos hrel, hresolve]
      exact ⟨_, seq_eq_ok.mpr ⟨throwIf_eq_ok.mpr (by
        rw [List.length_cons] at hfits
        simp only [List.length_singleton] at hfits
        omega), rfl⟩⟩
  | word h htwo hoperand hvalue hv =>
      cases hinfo.symm.trans h
      have hresolve := (resolveWordOperand_eq_ok pass).mpr ⟨_, hvalue, hv, rfl⟩
      rw [if_neg (by omega), if_pos htwo]
      simp only [hoperand]
      rw [hresolve]
      exact ⟨_, seq_eq_ok.mpr ⟨throwIf_eq_ok.mpr (by
        rw [List.length_cons, List.length_cons] at hfits
        simp only [List.length_singleton] at hfits
        omega), rfl⟩⟩

/-- The second pass accepts a statement that becomes bytes inside the ROM. -/
theorem exists_encodingAdd {encoding : Encoding} {a : Nat} {stmt : Statement} {item : Emittable}
    {values : List Byte} (hitem : stmt.item? a = some item)
    (hrom : encoding.rom.length = options.romSize.toNat)
    (hencodes : Encodes pass.value a stmt values) (hpos : 0 < values.length)
    (hinside : Inside options a values.length) :
    ∃ encoding', encoding.add host sourceFile options pass item = .ok encoding' := by
  have hspace := hinside.space
  have horigin := hinside.origin
  have hend := hinside.rom
  have hsize := options.romSize.isLt
  have haddress : (BitVec.ofNat 16 a).toNat = a := by
    rw [BitVec.toNat_ofNat]
    exact Nat.mod_eq_of_lt (by omega)
  unfold Encoding.add
  simp only [seq_eq_ok, throwIf_eq_ok, exists_and_left]
  cases stmt with
  | label decl => cases hitem
  | equ decl => cases hitem
  | directive stmt =>
      by_cases htype : stmt.type = .byte
      · simp only [Statement.item?, if_pos htype] at hitem
        cases hitem
        have hlength := length_of_encodes_bytes htype hencodes
        cases hencodes with
        | silent hsilent => exact absurd htype hsilent
        | bytes _ hvalues =>
            simp only [haddress]
            refine ⟨by omega, by omega, ?_⟩
            exact exists_addBytes pass host sourceFile options (by omega)
              (by simp only [haddress]; omega) hvalues
      · simp only [Statement.item?, if_neg htype] at hitem
        cases hitem
  | instruction stmt =>
      cases hinfo : selectInstruction stmt with
      | error e =>
          simp only [Statement.item?, hinfo] at hitem
          cases hitem
      | ok info =>
          simp only [Statement.item?, hinfo] at hitem
          cases hitem
          simp only [haddress]
          refine ⟨by omega, by omega, ?_⟩
          exact exists_addInstruction pass host sourceFile options hinfo rfl rfl rfl haddress
            (by omega) hencodes

/-- The whole second pass accepts admitted statements. -/
theorem exists_foldlM_encodingAdd {statements : List (Nat × Statement)} {encoding : Encoding}
    (hrom : encoding.rom.length = options.romSize.toNat)
    (h : ∀ p ∈ statements, Admitted options pass.value p.1 p.2) :
    ∃ encoding', (statements.filterMap fun p => p.2.item? p.1).foldlM
      (Encoding.add host sourceFile options pass) encoding = .ok encoding' := by
  induction statements generalizing encoding with
  | nil => exact ⟨encoding, rfl⟩
  | cons p rest ih =>
      have hrest := fun q hq => h q (List.mem_cons_of_mem _ hq)
      rw [filterMap_cons_eq]
      cases hitem : p.2.item? p.1 with
      | none => exact ih hrom hrest
      | some item =>
          obtain ⟨values, hencodes, hpos, hinside⟩ :=
            (h p List.mem_cons_self).encodes_of_item hitem
          obtain ⟨mid, hmid⟩ := exists_encodingAdd pass host sourceFile options hitem hrom hencodes
            hpos hinside
          have hspace := hinside.space
          have hsize := options.romSize.isLt
          obtain ⟨-, bytes, -, hwrites⟩ := writes_add pass host sourceFile options hitem
            (by omega) (by omega) hmid
          obtain ⟨encoding', hencoding'⟩ := ih (hwrites.length.trans hrom) hrest
          exact ⟨encoding', foldlM_cons_eq_ok.mpr ⟨mid, hmid, hencoding'⟩⟩

end Encode

/-! ## The program -/

theorem constants_of_foldlM {options : AssemblerOptions} {statements : List Statement}
    {pass pass' : FirstPassResult}
    (h : statements.foldlM (FirstPassResult.add options) pass = .ok pass') :
    pass'.constants = pass.constants ++ constantsOf statements := by
  induction statements generalizing pass with
  | nil =>
      cases h
      exact (List.append_nil _).symm
  | cons stmt rest ih =>
      obtain ⟨mid, hmid, hrest⟩ := foldlM_cons_eq_ok.mp h
      have hentries : constantsOf (stmt :: rest) = stmt.constant?.toList ++ constantsOf rest :=
        filterMap_cons_eq _ _ _
      rw [ih hrest, (defines_add hmid).constants, hentries, List.append_assoc]

/-- The first pass gives the names the meaning of the layout. -/
theorem value_of_firstPass {options : AssemblerOptions} {statements : List Statement}
    {pass : FirstPassResult}
    (hsize : ∀ p ∈ placed options.origin.toNat statements, p.2.size ≤ 2 ^ 16)
    (h : firstPass { statements } options = .ok pass) :
    pass.value = meaningOf options.origin.toNat statements := by
  have horigin : options.origin.toNat ≤ 2 ^ 16 := Nat.le_of_lt options.origin.isLt
  have hnone : (([] : List (Text × Word)).map Prod.fst).Nodup := List.nodup_nil
  have hsymbols := (items_of_foldlM horigin hsize hnone h).2.1
  have hconstants := constants_of_foldlM h
  rw [List.nil_append] at hsymbols hconstants
  exact value_congr hsymbols hconstants

theorem Admitted.size_le {options : AssemblerOptions} {value : Operand → Option Nat} {a : Nat}
    {stmt : Statement} (h : Admitted options value a stmt) : stmt.size ≤ 2 ^ 16 := by
  cases h with
  | label | equ => exact Nat.zero_le _
  | @included stmt htype =>
      show (if stmt.type = .byte then _ else 0) ≤ _
      rw [htype]
      exact Nat.zero_le _
  | @org stmt operand htype =>
      show (if stmt.type = .byte then _ else 0) ≤ _
      rw [htype]
      exact Nat.zero_le _
  | bytes _ _ hencodes hinside =>
      have hspace := hinside.space
      have hlength := hencodes.length
      omega
  | instruction hencodes hinside =>
      have hspace := hinside.space
      have hlength := hencodes.length
      omega

/-- The passes accept a program of admitted statements. -/
theorem exists_assembleProgram {Path : Type} {host : Host Path} {filename : Text}
    {options : AssemblerOptions} {statements : List Statement} (hfresh : FreshNames statements)
    (h : ∀ p ∈ placed options.origin.toNat statements,
      Admitted options (meaningOf options.origin.toNat statements) p.1 p.2) :
    ∃ result, assembleProgram host { statements } filename options = .ok result := by
  have horigin : options.origin.toNat ≤ 2 ^ 16 := Nat.le_of_lt options.origin.isLt
  have hfirst : ∃ pass, firstPass { statements } options = .ok pass ∧
      pass.maxAddress.toNat ≤ options.origin.toNat + options.romSize.toNat :=
    exists_foldlM_add horigin hfresh (fun _ _ _ _ => rfl) (fun _ _ _ _ => rfl)
      (Nat.le_add_right _ _) h
  obtain ⟨pass, hpass, hmax⟩ := hfirst
  have hsize : ∀ p ∈ placed options.origin.toNat statements, p.2.size ≤ 2 ^ 16 :=
    fun p hp => (h p hp).size_le
  have hvalue := value_of_firstPass hsize hpass
  have hnone : (([] : List (Text × Word)).map Prod.fst).Nodup := List.nodup_nil
  have hitems := (items_of_foldlM horigin hsize hnone hpass).1
  rw [List.nil_append] at hitems
  have hsecond : ∃ encoding, pass.items.foldlM (Encoding.add host filename options pass)
      { rom := List.replicate options.romSize.toNat 0xFF } = .ok encoding := by
    rw [hitems]
    exact exists_foldlM_encodingAdd pass host filename options List.length_replicate (hvalue ▸ h)
  obtain ⟨encoding, hencoding⟩ := hsecond
  have hencode : ∃ result, encode host filename options pass = .ok result := by
    unfold encode
    simp only [bind_eq_ok]
    refine ⟨_, (), throwIf_eq_ok.mpr ?_, encoding, hencoding, rfl⟩
    split
    · omega
    · omega
  obtain ⟨result, hresult⟩ := hencode
  exact ⟨result, bind_eq_ok.mpr ⟨pass, hpass, hresult⟩⟩

/-! ### What the passes have checked -/

theorem org_of_add {options : AssemblerOptions} {pass pass' : FirstPassResult}
    {stmt : DirectiveStmt} (htype : stmt.type = .org)
    (h : pass.add options (.directive stmt) = .ok pass') :
    ∃ operand, stmt.operands = [operand] ∧ operand.kind = .number ∧
      options.origin.toNat ≤ operand.number.toNat ∧ operand.number.toNat ≤ 0xFFFF := by
  unfold FirstPassResult.add at h
  simp only [htype] at h
  unfold FirstPassResult.addOrg at h
  split at h
  · rename_i operand hoperand
    rw [seq_eq_ok, throwIf_eq_ok, seq_eq_ok, throwIf_eq_ok, seq_eq_ok, throwIf_eq_ok] at h
    exact ⟨operand, hoperand, not_not.mp h.1, Nat.not_lt.mp h.2.2.1, Nat.not_lt.mp h.2.1⟩
  · cases h

/-- No statement of an accepted program is larger than the address space. -/
theorem size_le_of_foldlM {options : AssemblerOptions} {statements : List Statement}
    {pass pass' : FirstPassResult} (hcursor : pass.cursor ≤ 2 ^ 16)
    (hsize : ∀ stmt ∈ statements, stmt.size < 2 ^ 31)
    (h : statements.foldlM (FirstPassResult.add options) pass = .ok pass') :
    ∀ p ∈ placed pass.cursor statements, p.2.size ≤ 2 ^ 16 := by
  induction statements generalizing pass with
  | nil =>
      intro p hp
      cases hp
  | cons stmt rest ih =>
      obtain ⟨mid, hmid, hrest⟩ := foldlM_cons_eq_ok.mp h
      have hadvances := advances_add (by omega) hmid
      have hstmt := hsize stmt List.mem_cons_self
      -- a larger one would end behind the last address
      have hlast : 0 < stmt.size → pass.cursor + stmt.size ≤ 2 ^ 16 := by
        intro hpos
        obtain ⟨hle, hend⟩ := hadvances.placed hpos
        unfold lastByte at hend
        omega
      have hnext : stmt.next pass.cursor ≤ 2 ^ 16 := by
        by_cases hzero : stmt.size = 0
        · exact hadvances.bounded hcursor hzero
        · have hmove := next_eq_or_size_eq_zero pass.cursor stmt
          have hend := hlast (Nat.pos_of_ne_zero hzero)
          omega
      have hmidCursor : mid.cursor = stmt.next pass.cursor := by
        rw [hadvances.cursor]
        exact Nat.mod_eq_of_lt (by omega)
      intro p hp
      obtain rfl | hp := List.mem_cons.mp hp
      · show stmt.size ≤ _
        omega
      · rw [← hmidCursor] at hp
        exact ih (by omega) (fun s hs => hsize s (List.mem_cons_of_mem _ hs)) hrest p hp

theorem freshNames_of_foldlM {options : AssemblerOptions} {statements : List Statement}
    {pass pass' : FirstPassResult}
    (h : statements.foldlM (FirstPassResult.add options) pass = .ok pass') :
    FreshNames statements := by
  induction statements generalizing pass with
  | nil => exact .nil
  | cons stmt rest ih =>
      obtain ⟨mid, hmid, hrest⟩ := foldlM_cons_eq_ok.mp h
      have hdefines := defines_add hmid
      have hfresh := fresh_of_foldlM hrest
      rw [hdefines.symbols, hdefines.constants] at hfresh
      refine List.pairwise_cons.mpr ⟨fun s hs name hname hsame => ?_, ih hrest⟩
      cases stmt with
      | label decl =>
          -- both kinds of statements look for the label
          cases hname
          have hnone := (OrderedMap.find_append_eq_none (hfresh.1 s hs _ hsame)).2
          unfold Statement.symbol? at hnone
          rw [Option.toList_some, OrderedMap.find_singleton_self] at hnone
          cases hnone
      | equ decl =>
          cases hname
          cases s with
          | label decl' => exact ⟨rfl, rfl⟩
          | equ decl' =>
              have hnone := (OrderedMap.find_append_eq_none (hfresh.2 _ hs _ rfl)).2
              unfold Statement.constant? at hnone
              rw [Option.toList_some, Option.some.inj hsame,
                OrderedMap.find_singleton_self] at hnone
              cases hnone
          | instruction | directive => cases hsame
      | instruction | directive => cases hname

/-- Every statement of an accepted program is admitted. -/
theorem admitted_of_assembleProgram {Path : Type} {host : Host Path} {filename : Text}
    {options : AssemblerOptions} {statements : List Statement} {result : AssemblerResult}
    (hsize : ∀ stmt ∈ statements, stmt.size < 2 ^ 31)
    (h : assembleProgram host { statements } filename options = .ok result) :
    FreshNames statements ∧ ∀ p ∈ placed options.origin.toNat statements,
      Admitted options (meaningOf options.origin.toNat statements) p.1 p.2 := by
  have horigin : options.origin.toNat ≤ 2 ^ 16 := Nat.le_of_lt options.origin.isLt
  have hnone : (([] : List (Text × Word)).map Prod.fst).Nodup := List.nodup_nil
  obtain ⟨pass, hpass, hencode⟩ := bind_eq_ok.mp h
  have hsizes : ∀ p ∈ placed options.origin.toNat statements, p.2.size ≤ 2 ^ 16 :=
    size_le_of_foldlM horigin hsize hpass
  obtain ⟨hitems, -, -, hrange⟩ := items_of_foldlM horigin hsizes hnone hpass
  rw [List.nil_append] at hitems
  unfold encode at hencode
  rw [seq_eq_ok, bind_eq_ok] at hencode
  obtain ⟨-, encoding, hencoding, -⟩ := hencode
  rw [hitems] at hencoding
  have hromSize : (List.replicate options.romSize.toNat (0xFF : Byte)).length < 2 ^ 32 := by
    rw [List.length_replicate]
    exact options.romSize.isLt
  obtain ⟨ws, hws, hall⟩ := writesAll_foldlM pass host filename options
    (fun p hp => (hrange p hp).ranged) hromSize hencoding
  rw [value_of_firstPass hsizes hpass] at hws
  -- what a statement becomes is written inside the ROM
  have hwritten : ∀ p ∈ placed options.origin.toNat statements, 0 < p.2.size →
      ∃ values, Encodes (meaningOf options.origin.toNat statements) p.1 p.2 values ∧
        Inside options p.1 values.length := by
    intro p hp hpos
    obtain ⟨w, hw, hencodes, hplace⟩ := exists_right_of_forall₂ hws hp
    have hlength := hencodes.length
    have hfits := hall.fits hw
    have hspace := (hrange p hp).fits hpos
    rw [List.length_replicate] at hfits
    obtain hnil | ⟨hle, hplace⟩ := hplace
    · rw [hnil] at hlength
      simp only [List.length_nil] at hlength
      omega
    · exact ⟨w.2, hencodes, hle, by omega, by omega⟩
  refine ⟨freshNames_of_foldlM hpass, ?_⟩
  intro p hp
  have hinRange := hrange p hp
  obtain ⟨a, stmt⟩ := p
  cases stmt with
  | label decl => exact .label decl (hinRange.labelled rfl)
  | equ decl => exact .equ decl
  | instruction stmt =>
      have hpos : 0 < Statement.size (.instruction stmt) := by
        cases hitem : Statement.item? a (.instruction stmt) with
        | none =>
            -- an instruction without an item is not silent
            have hencodes := (hinRange.silent hitem).2 (fun _ => none) 0
            cases hencodes
        | some item => exact hinRange.positive (by rw [hitem]; rfl)
      obtain ⟨values, hencodes, hinside⟩ := hwritten _ hp hpos
      exact .instruction hencodes hinside
  | directive stmt =>
      cases htype : stmt.type with
      | org =>
          obtain ⟨before, after, hadd⟩ := exists_of_foldlM_eq_ok hpass (mem_of_mem_placed hp)
          obtain ⟨operand, hoperand, hkind, hlow, hhigh⟩ := org_of_add htype hadd
          exact .org htype hoperand hkind hlow hhigh
      | byte =>
          have hitem : (Statement.item? a (.directive stmt)).isSome := by
            show (if stmt.type = .byte then some _ else none : Option Emittable).isSome
            rw [if_pos htype]
            rfl
          obtain ⟨values, hencodes, hinside⟩ := hwritten _ hp (hinRange.positive hitem)
          have hlength := length_of_encodes_bytes htype hencodes
          have hpos := hinRange.positive hitem
          have hsizeEq := hencodes.length
          refine .bytes htype ?_ hencodes hinside
          intro hempty
          rw [hempty] at hlength
          simp only [List.length_nil] at hlength
          omega
      | _ => exact .included htype

/-- The passes accept just the programs of admitted statements. -/
theorem assembleProgram_iff {Path : Type} {host : Host Path} {filename : Text}
    {options : AssemblerOptions} {statements : List Statement}
    (hsize : ∀ stmt ∈ statements, stmt.size < 2 ^ 31) :
    (∃ result, assembleProgram host { statements } filename options = .ok result) ↔
      FreshNames statements ∧ ∀ p ∈ placed options.origin.toNat statements,
        Admitted options (meaningOf options.origin.toNat statements) p.1 p.2 := by
  constructor
  · rintro ⟨result, h⟩
    exact admitted_of_assembleProgram hsize h
  · rintro ⟨hfresh, h⟩
    exact exists_assembleProgram hfresh h

theorem assemble_of_assembleProgram {Path : Type} [DecidableEq Path] {host : Host Path}
    {levels : Nat} {source filename : Text} {options : AssemblerOptions} {program : Program}
    {result : AssemblerResult} (hexpand : expand host levels source filename = some (.ok program))
    (h : assembleProgram host program filename options = .ok result) :
    assemble host levels source filename options = some (.ok result) := by
  unfold assemble
  rw [hexpand, Option.map_some]
  simp only [Except.bind, h]

/-- The assembler accepts a source just when no name of it is taken and every statement is admitted
at its address, with the meaning that the whole program gives to the names. -/
theorem assemble_iff_admitted {Path : Type} [DecidableEq Path] {host : Host Path} {levels : Nat}
    {source filename : Text} {options : AssemblerOptions} {program : Program}
    (hexpand : expand host levels source filename = some (.ok program))
    (hsize : ∀ stmt ∈ program.statements, stmt.size < 2 ^ 31) :
    (∃ result, assemble host levels source filename options = some (.ok result)) ↔
      FreshNames program.statements ∧
        ∀ p ∈ placed options.origin.toNat program.statements,
          Admitted options (meaningOf options.origin.toNat program.statements) p.1 p.2 := by
  rw [← assembleProgram_iff hsize]
  constructor
  · rintro ⟨result, h⟩
    obtain ⟨program', pass, hexpand', hpass, hencode⟩ := assemble_eq_ok h
    cases hexpand.symm.trans hexpand'
    exact ⟨result, bind_eq_ok.mpr ⟨pass, hpass, hencode⟩⟩
  · rintro ⟨result, h⟩
    exact ⟨result, assemble_of_assembleProgram hexpand h⟩

/-- The statements of a program with a forward reference. -/
theorem assemble_iff_admitted_forward : FreshNames forwardProgram.statements ∧
    ∀ p ∈ placed 0x8000 forwardProgram.statements,
      Admitted { romSize := 8 } (meaningOf 0x8000 forwardProgram.statements) p.1 p.2 := by
  have hexpand : expand flatHost 1 forwardSource [] = some (.ok forwardProgram) := by
    decide +kernel
  have hsize : ∀ stmt ∈ forwardProgram.statements, stmt.size < 2 ^ 31 := by
    decide +kernel
  have hassemble : assemble flatHost 1 forwardSource [] { romSize := 8 } =
      some (.ok forwardResult) := by
    decide +kernel
  exact (assemble_iff_admitted hexpand hsize).mp ⟨forwardResult, hassemble⟩

end Irata2.Assembler
