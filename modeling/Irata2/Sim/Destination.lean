import Irata2.Sim.Effects

/-!
# The destination of an instruction

An instruction that neither transfers control nor stops the CPU computes one byte.  It goes to one
register or address, the listed flags are set from it, and everything else stays as it was.
-/

namespace Irata2.Sim

open Hdl Isa Library Library.StateRun Microcode

/-! ## The destination -/

/-- Where an instruction puts its result. -/
inductive Destination
  | nowhere
  | register (r : Isa.Register)
  | stackPointer
  | status
  | memory (address : Word)
  deriving DecidableEq, Repr

namespace Arch

def destination (s : Arch) (i : InstructionInfo) : Destination :=
  match actionOn i s.status with
  | .load r | .modify r _ | .transfer _ r => .register r
  | .accumulate _ | .pullAccumulator => .register .a
  | .stackToX => .register .x
  | .xToStack => .stackPointer
  | .pullStatus => .status
  | .store _ | .modifyMemory _ => .memory (s.operand i).address
  | .pushAccumulator | .pushStatus => .memory (stackAt s.sp)
  | _ => .nowhere

/-- The byte that an instruction computes, from the operand that it finds. -/
def result (s : Arch) (i : InstructionInfo) : Byte :=
  let v := (s.operand i).arch.look (s.operand i).address
  let carry := Status.value .carry s.status
  match actionOn i s.status with
  | .load _ => v
  | .store r => s.reg r
  | .accumulate f => f.value s.a v carry
  | .compare r => s.reg r - v
  | .bit => s.a &&& v
  | .modify r f => f.value (s.reg r) carry
  | .modifyMemory f => f.value v carry
  | .transfer source _ => s.reg source
  | .stackToX => s.sp
  | .xToStack => s.x
  | .pushAccumulator => s.a
  | .pushStatus => s.status
  | .pullAccumulator | .pullStatus => (s.operand i).arch.top
  | _ => 0

/-- The stack pointer moves by one with each byte pushed or pulled. -/
def spAfter (s : Arch) (i : InstructionInfo) : Byte :=
  match actionOn i s.status with
  | .pushAccumulator | .pushStatus => s.sp - 1
  | .pullAccumulator | .pullStatus => s.sp + 1
  | .xToStack => s.x
  | _ => s.sp

/-- What an instruction that neither transfers control nor stops the CPU does to the registers,
the flags and the memory. -/
structure Effect (s : Arch) (i : InstructionInfo) (s' : Arch) : Prop where
  registers : ∀ r, s'.reg r = if s.destination i = .register r then s.result i else s.reg r
  sp : s'.sp = s.spAfter i
  status : s.destination i = .status → s'.status = s.result i
  zero : .zero ∈ i.flagsAffected → s.destination i ≠ .status →
    Status.value .zero s'.status = (s.result i == 0)
  negative : .negative ∈ i.flagsAffected → s.destination i ≠ .status →
    Status.value .negative s'.status = (s.result i &&& 0x80 != 0)
  flag : ∀ f v, actionOn i s.status = .assign f v → Status.value f s'.status = v
  memory : ∀ b, s'.memory.cell b =
    if s.destination i = .memory b then some (s.result i) else s.memory.cell b

/-! ### Finding the operand changes nothing else -/

theorem locate_reg (s : Arch) (mode : AddressingMode) (r : Isa.Register) :
    (s.locate mode).arch.reg r = s.reg r := by
  cases mode <;> cases r <;> rfl

theorem cell_read (s : Arch) (address b : Word) :
    (s.read address).memory.cell b = s.memory.cell b :=
  Memory.cell_afterRead s.memory address b

theorem isRam_read (s : Arch) (address b : Word) :
    (s.read address).memory.isRam b = s.memory.isRam b :=
  Memory.isRam_afterRead s.memory address b

theorem locate_memory {α : Type*} (π : Memory → α)
    (hread : ∀ m address, π (Memory.afterRead m address) = π m) (s : Arch)
    (mode : AddressingMode) : π (s.locate mode).arch.memory = π s.memory := by
  have hpointer : ∀ (t : Arch) p, π (t.pointer p).arch.memory = π t.memory := fun t p =>
    (hread _ _).trans (hread t.memory _)
  cases mode with
  | imp | imm | rel => rfl
  | zp | zpx | zpy => exact hread _ _
  | abs | ind | abx | aby => exact (hread _ _).trans (hread _ _)
  | izx => exact (hpointer s.next _).trans (hread _ _)
  | izy => exact (hpointer s.next _).trans (hread _ _)

section Operand

variable (s : Arch) (i : InstructionInfo)

theorem operand_reg (r : Isa.Register) : (s.operand i).arch.reg r = s.reg r := by
  unfold operand
  rw [locate_reg]
  cases r <;> rfl

theorem operand_sp : (s.operand i).arch.sp = s.sp := Bodies.locate_sp s.next i.addressingMode

theorem operand_status : (s.operand i).arch.status = s.status :=
  locate_status s.next i.addressingMode

theorem operand_cell (b : Word) : (s.operand i).arch.memory.cell b = s.memory.cell b :=
  (locate_memory (fun m : Memory => m.cell b) (fun m address => m.cell_afterRead address b) s.next
    i.addressingMode).trans (cell_read s s.pc b)

theorem operand_isRam (b : Word) : (s.operand i).arch.memory.isRam b = s.memory.isRam b :=
  (locate_memory (fun m : Memory => m.isRam b) (fun m address => m.isRam_afterRead address b)
    s.next i.addressingMode).trans (isRam_read s s.pc b)

end Operand

/-! ### The result reaches its destination, and nothing else changes -/

theorem reg_setReg (s : Arch) (r r' : Isa.Register) (v : Byte) :
    (s.setReg r v).reg r' = if r = r' then v else s.reg r' := by
  cases r <;> cases r' <;> rfl

theorem sp_setReg (s : Arch) (r : Isa.Register) (v : Byte) : (s.setReg r v).sp = s.sp := by
  cases r <;> rfl

theorem memory_setReg (s : Arch) (r : Isa.Register) (v : Byte) :
    (s.setReg r v).memory = s.memory := by
  cases r <;> rfl

theorem zero_setFlags (s : Arch) (v : Byte) :
    Status.value .zero (s.setFlags v).status = (v == 0) := by
  rw [value_setFlags, if_neg (by decide), if_pos rfl]

theorem negative_setFlags (s : Arch) (v : Byte) :
    Status.value .negative (s.setFlags v).status = (v &&& 0x80 != 0) := by
  rw [value_setFlags, if_pos rfl]

/-- The cells after a store to RAM. -/
theorem cell_store_eq {m : Memory} {address : Word} (h : m.isRam address = true) (v : Byte)
    (b : Word) : (m.store address v).cell b = if address = b then some v else m.cell b := by
  by_cases hb : address = b
  · rw [if_pos hb, ← hb]
    exact Memory.cell_store h v
  · rw [if_neg hb]
    exact Memory.cell_store_of_ne m (fun heq => hb heq.symm) v

/-- A store to RAM succeeds. -/
theorem exec_store {s' : Arch} {m : Memory} {address : Word} {v : Byte} {f : Memory → Arch}
    (hram : m.isRam address = true) (h : (m.writeAt address v).map f = .ok s') :
    s' = f (m.store address v) := by
  rw [Memory.writeAt_store hram] at h
  cases h
  rfl

/-- The actions whose result sets zero and negative. -/
def setsFlags : Isa.Action → Bool
  | .load _ | .accumulate _ | .compare _ | .bit | .modify _ _ | .modifyMemory _ | .transfer _ _
  | .stackToX | .pullAccumulator => true
  | _ => false

/-- The instruction table against the actions: zero and negative are listed for these only, and for
the action that pulls the whole status. -/
theorem setsFlags_of_listed {i : InstructionInfo} (hi : i ∈ Isa.instructions) {status : Byte}
    {f : StatusFlag} (hf : f = .zero ∨ f = .negative) (h : f ∈ i.flagsAffected) :
    setsFlags (actionOn i status) = true ∨ actionOn i status = .pullStatus := by
  -- the table is checked row by row, with both actions of a conditional instruction
  have hall : ∀ i ∈ Isa.instructions,
      ∀ action ∈ [i.mnemonic.action i.addressingMode, i.mnemonic.otherwise],
      (action = i.mnemonic.action i.addressingMode ∨ i.mnemonic.condition ≠ none) →
      (StatusFlag.zero ∈ i.flagsAffected ∨ StatusFlag.negative ∈ i.flagsAffected) →
        setsFlags action = true ∨ action = .pullStatus := by
    decide +kernel
  refine hall i hi _ (Cpu.actionOn_mem i status) ?_ ?_
  · unfold actionOn
    cases i.mnemonic.condition with
    | none => exact .inl rfl
    | some c => exact .inr (Option.some_ne_none c)
  · rcases hf with rfl | rfl
    · exact .inl h
    · exact .inr h

/-- Everything but the result and the flags is there already: the stack pointer has moved, and the
registers and the memory are those before the instruction. -/
structure Prepared (s : Arch) (i : InstructionInfo) (t : Arch) : Prop where
  reg : ∀ r, t.reg r = s.reg r
  sp : t.sp = s.spAfter i
  cell : ∀ b, t.memory.cell b = s.memory.cell b

section Results

variable {s t : Arch} {i : InstructionInfo}

theorem Prepared.read (h : Prepared s i t) (address : Word) : Prepared s i (t.read address) :=
  ⟨fun r => (by cases r <;> rfl : (t.read address).reg r = t.reg r).trans (h.reg r), h.sp,
    fun b => (cell_read t address b).trans (h.cell b)⟩

theorem Prepared.afterAlu (h : Prepared s i t) (opcode : Nat) (lhs rhs : Byte) :
    Prepared s i (t.afterAlu opcode lhs rhs) :=
  ⟨fun r => (by cases r <;> rfl : (t.afterAlu opcode lhs rhs).reg r = t.reg r).trans (h.reg r),
    h.sp, h.cell⟩

theorem Prepared.assign (h : Prepared s i t) (f : StatusBit) (v : Bool) :
    Prepared s i (t.assign f v) :=
  ⟨fun r => (by cases r <;> rfl : (t.assign f v).reg r = t.reg r).trans (h.reg r), h.sp, h.cell⟩

/-- An instruction that lists zero or negative sets them from its result. -/
theorem Prepared.register (h : Prepared s i t) {r : Isa.Register}
    (hd : s.destination i = .register r) (hflag : ∀ f v, actionOn i s.status ≠ .assign f v) :
    Effect s i ((t.setReg r (s.result i)).setFlags (s.result i)) where
  registers := by
    intro r'
    show (t.setReg r (s.result i)).reg r' = _
    rw [reg_setReg, hd, h.reg]
    simp only [Destination.register.injEq]
  sp := (sp_setReg t r _).trans h.sp
  status := fun hs => absurd (hd.symm.trans hs) (fun h => by cases h)
  zero := fun _ _ => zero_setFlags _ _
  negative := fun _ _ => negative_setFlags _ _
  flag := fun f v hf => absurd hf (hflag f v)
  memory := by
    intro b
    show (t.setReg r (s.result i)).memory.cell b = _
    rw [memory_setReg, hd, if_neg (fun h => by cases h), h.cell]

theorem Prepared.compared (h : Prepared s i t) (hd : s.destination i = .nowhere)
    (hflag : ∀ f v, actionOn i s.status ≠ .assign f v) :
    Effect s i (t.setFlags (s.result i)) where
  registers := by
    intro r
    show t.reg r = _
    rw [hd, if_neg (fun h => by cases h), h.reg]
  sp := h.sp
  status := fun hs => absurd (hd.symm.trans hs) (fun h => by cases h)
  zero := fun _ _ => zero_setFlags _ _
  negative := fun _ _ => negative_setFlags _ _
  flag := fun f v hf => absurd hf (hflag f v)
  memory := by
    intro b
    show t.memory.cell b = _
    rw [hd, if_neg (fun h => by cases h), h.cell]

theorem Prepared.modified (h : Prepared s i t) {address : Word}
    (hd : s.destination i = .memory address) (hram : t.memory.isRam address = true)
    (hflag : ∀ f v, actionOn i s.status ≠ .assign f v) :
    Effect s i (({ t with memory := t.memory.store address (s.result i) } : Arch).setFlags
      (s.result i)) where
  registers := by
    intro r
    have hr : ∀ m : Memory, ({ t with memory := m } : Arch).reg r = t.reg r := fun m => by
      cases r <;> rfl
    show ({ t with memory := t.memory.store address (s.result i) } : Arch).reg r = _
    rw [hr, hd, if_neg (fun h => by cases h), h.reg]
  sp := h.sp
  status := fun hs => absurd (hd.symm.trans hs) (fun h => by cases h)
  zero := fun _ _ => zero_setFlags _ _
  negative := fun _ _ => negative_setFlags _ _
  flag := fun f v hf => absurd hf (hflag f v)
  memory := by
    intro b
    show (t.memory.store address (s.result i)).cell b = _
    rw [cell_store_eq hram, hd, h.cell]
    simp only [Destination.memory.injEq]

/-- An instruction that lists neither zero nor negative leaves what its result says of them out. -/
theorem Effect.of_unlisted (hi : i ∈ Isa.instructions)
    (hsets : setsFlags (actionOn i s.status) = false) (hpull : actionOn i s.status ≠ .pullStatus)
    (hd : s.destination i ≠ .status)
    (hflag : ∀ f v, actionOn i s.status = .assign f v → Status.value f t.status = v)
    (registers : ∀ r, t.reg r = if s.destination i = .register r then s.result i else s.reg r)
    (sp : t.sp = s.spAfter i)
    (memory : ∀ b, t.memory.cell b =
      if s.destination i = .memory b then some (s.result i) else s.memory.cell b) :
    Effect s i t := by
  have hnone : ∀ f : StatusFlag, f = .zero ∨ f = .negative → f ∉ i.flagsAffected := by
    intro f hf hmem
    rcases setsFlags_of_listed hi hf hmem with h | h
    · rw [hsets] at h
      cases h
    · exact hpull h
  exact ⟨registers, sp, fun h => absurd h hd, fun h => absurd h (hnone _ (.inl rfl)),
    fun h => absurd h (hnone _ (.inr rfl)), hflag, memory⟩

theorem Prepared.stored (h : Prepared s i t) (hi : i ∈ Isa.instructions)
    (hsets : setsFlags (actionOn i s.status) = false) (hpull : actionOn i s.status ≠ .pullStatus)
    {address : Word} (hd : s.destination i = .memory address)
    (hram : t.memory.isRam address = true) (hflag : ∀ f v, actionOn i s.status ≠ .assign f v) :
    Effect s i { t with memory := t.memory.store address (s.result i) } := by
  apply Effect.of_unlisted hi hsets hpull (by simp [hd]) (fun f v hf => absurd hf (hflag f v))
  · intro r
    have hr : ∀ m : Memory, ({ t with memory := m } : Arch).reg r = t.reg r := fun m => by
      cases r <;> rfl
    rw [hr, hd, if_neg (fun h => by cases h), h.reg]
  · exact h.sp
  · intro b
    show (t.memory.store address (s.result i)).cell b = _
    rw [cell_store_eq hram, hd, h.cell]
    simp only [Destination.memory.injEq]

theorem Prepared.kept (h : Prepared s i t) (hi : i ∈ Isa.instructions)
    (hsets : setsFlags (actionOn i s.status) = false) (hpull : actionOn i s.status ≠ .pullStatus)
    (hd : s.destination i = .nowhere ∨ s.destination i = .stackPointer)
    (hflag : ∀ f v, actionOn i s.status = .assign f v → Status.value f t.status = v) :
    Effect s i t := by
  have hne : ∀ d, d ≠ .nowhere → d ≠ .stackPointer → s.destination i ≠ d := by
    intro d h₁ h₂ heq
    rw [heq] at hd
    exact hd.elim h₁ h₂
  apply Effect.of_unlisted hi hsets hpull (hne _ (fun h => by cases h) (fun h => by cases h)) hflag
  · intro r
    rw [if_neg (hne (.register r) (fun h => by cases h) (fun h => by cases h)), h.reg]
  · exact h.sp
  · intro b
    rw [if_neg (hne (.memory b) (fun h => by cases h) (fun h => by cases h)), h.cell]

/-- A push stores the result at the stack pointer, and moves it down. -/
theorem effect_push (hi : i ∈ Isa.instructions) (hsets : setsFlags (actionOn i s.status) = false)
    (hpull : actionOn i s.status ≠ .pullStatus) (hflag : ∀ f v, actionOn i s.status ≠ .assign f v)
    (hd : s.destination i = .memory (stackAt s.sp)) (hmoved : s.spAfter i = s.sp - 1)
    (hram : (s.operand i).arch.memory.isRam (stackAt s.sp) = true) :
    Effect s i ((s.operand i).arch.push (s.result i)) := by
  have hsp := operand_sp s i
  have h : Prepared s i { (s.operand i).arch with sp := (s.operand i).arch.sp - 1 } := by
    refine ⟨fun r => ?_, ?_, operand_cell s i⟩
    · rw [← operand_reg s i r]
      cases r <;> rfl
    · rw [hmoved, ← hsp]
  have heffect := h.stored hi hsets hpull hd hram hflag
  unfold push
  rw [hsp] at heffect ⊢
  exact heffect

end Results

/-! ### The actions one by one -/

section Actions

variable {s s' : Arch} {i : InstructionInfo}

theorem operand_carry :
    Status.value .carry (s.operand i).arch.status = Status.value .carry s.status := by
  rw [operand_status]

/-- With the operand found, everything is there for an action that leaves the stack alone. -/
theorem prepared_operand (h : s.spAfter i = s.sp) : Prepared s i (s.operand i).arch :=
  ⟨operand_reg s i, (operand_sp s i).trans h.symm, operand_cell s i⟩

theorem isRam_of_write (hram : ∀ b, .write b ∈ s.accesses i → s.memory.isRam b = true) (b : Word)
    (hb : .write b ∈ Action.accesses (s.operand i).address s.sp (actionOn i s.status)) :
    (s.operand i).arch.memory.isRam b = true := by
  rw [operand_isRam]
  exact hram b (List.mem_cons_of_mem _ (List.mem_append_right _ hb))

theorem effect_load {r : Isa.Register} (haction : actionOn i s.status = .load r)
    (hexec : s.execute i = .ok s') : Effect s i s' := by
  unfold execute at hexec
  have hd : s.destination i = .register r := by simp only [destination, haction]
  have hresult : s.result i = (s.operand i).arch.look (s.operand i).address := by
    simp only [result, haction]
  have hmoved : s.spAfter i = s.sp := by simp only [spAfter, haction]
  rw [haction] at hexec
  cases hexec
  have h := ((prepared_operand hmoved).read (s.operand i).address).register hd (by simp [haction])
  rw [hresult] at h
  exact h

theorem effect_accumulate {f : Isa.Binary} (haction : actionOn i s.status = .accumulate f)
    (hexec : s.execute i = .ok s') : Effect s i s' := by
  unfold execute at hexec
  have hd : s.destination i = .register .a := by simp only [destination, haction]
  have hresult : s.result i = f.value s.a ((s.operand i).arch.look (s.operand i).address)
      (Status.value .carry s.status) := by
    simp only [result, haction]
  have hmoved : s.spAfter i = s.sp := by simp only [spAfter, haction]
  rw [haction] at hexec
  cases hexec
  have h := (((prepared_operand hmoved).read (s.operand i).address).afterAlu f.code s.a
    ((s.operand i).arch.look (s.operand i).address)).register hd (by simp [haction])
  rw [hresult] at h
  have ha : (s.operand i).arch.a = s.a := operand_reg s i .a
  rw [operand_carry, ha]
  exact h

theorem effect_compare {r : Isa.Register} (haction : actionOn i s.status = .compare r)
    (hexec : s.execute i = .ok s') : Effect s i s' := by
  unfold execute at hexec
  have hd : s.destination i = .nowhere := by simp only [destination, haction]
  have hresult : s.result i = s.reg r - (s.operand i).arch.look (s.operand i).address := by
    simp only [result, haction]
  have hmoved : s.spAfter i = s.sp := by simp only [spAfter, haction]
  rw [haction] at hexec
  cases hexec
  have hread := (prepared_operand hmoved).read (s.operand i).address
  have h := ((hread.assign .carry true).afterAlu 0x2 (s.reg r)
    ((s.operand i).arch.look (s.operand i).address)).compared hd (by simp [haction])
  rw [hresult] at h
  rw [operand_reg s i r]
  exact h

theorem effect_bit (haction : actionOn i s.status = .bit) (hexec : s.execute i = .ok s') :
    Effect s i s' := by
  unfold execute at hexec
  have hd : s.destination i = .nowhere := by simp only [destination, haction]
  have hresult : s.result i = s.a &&& (s.operand i).arch.look (s.operand i).address := by
    simp only [result, haction]
  have hmoved : s.spAfter i = s.sp := by simp only [spAfter, haction]
  rw [haction] at hexec
  cases hexec
  have h := ((prepared_operand hmoved).read (s.operand i).address).compared hd (by simp [haction])
  rw [hresult] at h
  have ha : (s.operand i).arch.a = s.a := operand_reg s i .a
  rw [ha]
  exact h

theorem effect_modify {r : Isa.Register} {op : Isa.Unary}
    (haction : actionOn i s.status = .modify r op) (hexec : s.execute i = .ok s') :
    Effect s i s' := by
  unfold execute at hexec
  have hd : s.destination i = .register r := by simp only [destination, haction]
  have hresult : s.result i = op.value (s.reg r) (Status.value .carry s.status) := by
    simp only [result, haction]
  have hmoved : s.spAfter i = s.sp := by simp only [spAfter, haction]
  rw [haction] at hexec
  cases hexec
  have h := ((prepared_operand hmoved).afterAlu op.code (s.reg r) 0).register hd (by simp [haction])
  rw [hresult] at h
  rw [operand_carry, operand_reg s i r]
  exact h

theorem effect_transfer {source target : Isa.Register}
    (haction : actionOn i s.status = .transfer source target) (hexec : s.execute i = .ok s') :
    Effect s i s' := by
  unfold execute at hexec
  have hd : s.destination i = .register target := by simp only [destination, haction]
  have hresult : s.result i = s.reg source := by
    simp only [result, haction]
  have hmoved : s.spAfter i = s.sp := by simp only [spAfter, haction]
  rw [haction] at hexec
  cases hexec
  have h := (prepared_operand hmoved).register hd (by simp [haction])
  rw [hresult] at h
  rw [operand_reg s i source]
  exact h

theorem effect_stackToX (haction : actionOn i s.status = .stackToX) (hexec : s.execute i = .ok s') :
    Effect s i s' := by
  unfold execute at hexec
  have hd : s.destination i = .register .x := by simp only [destination, haction]
  have hresult : s.result i = s.sp := by
    simp only [result, haction]
  have hmoved : s.spAfter i = s.sp := by simp only [spAfter, haction]
  rw [haction] at hexec
  cases hexec
  have h := (prepared_operand hmoved).register hd (by simp [haction])
  rw [hresult, ← operand_sp s i] at h
  exact h

theorem effect_pullAccumulator (haction : actionOn i s.status = .pullAccumulator)
    (hexec : s.execute i = .ok s') : Effect s i s' := by
  unfold execute at hexec
  have hd : s.destination i = .register .a := by simp only [destination, haction]
  have hresult : s.result i = (s.operand i).arch.top := by
    simp only [result, haction]
  have hmoved : s.spAfter i = s.sp + 1 := by simp only [spAfter, haction]
  rw [haction] at hexec
  cases hexec
  have hpulled : Prepared s i (s.operand i).arch.pull := by
    refine ⟨fun r => ?_, ?_, fun b => ?_⟩
    · rw [← operand_reg s i r]
      cases r <;> rfl
    · rw [hmoved, ← operand_sp s i]
      rfl
    · exact (cell_read _ _ b).trans (operand_cell s i b)
  have h := hpulled.register hd (by simp [haction])
  rw [hresult] at h
  exact h

theorem effect_pullStatus (haction : actionOn i s.status = .pullStatus)
    (hexec : s.execute i = .ok s') : Effect s i s' := by
  unfold execute at hexec
  have hd : s.destination i = .status := by simp only [destination, haction]
  have hresult : s.result i = (s.operand i).arch.top := by
    simp only [result, haction]
  have hmoved : s.spAfter i = s.sp + 1 := by simp only [spAfter, haction]
  rw [haction] at hexec
  cases hexec
  -- zero and negative are those pulled, so there is nothing to show of the result
  refine ⟨fun r => ?_, ?_, fun _ => ?_, fun _ h => absurd hd h, fun _ h => absurd hd h,
    fun f v h => ?_, fun b => ?_⟩
  · rw [hd, if_neg (fun h => by cases h), ← operand_reg s i r]
    cases r <;> rfl
  · rw [hmoved, ← operand_sp s i]
    rfl
  · rw [hresult]
  · rw [haction] at h
    cases h
  · rw [hd, if_neg (fun h => by cases h)]
    exact (cell_read _ _ b).trans (operand_cell s i b)

theorem effect_modifyMemory {op : Isa.Unary} (haction : actionOn i s.status = .modifyMemory op)
    (hram : ∀ b, .write b ∈ s.accesses i → s.memory.isRam b = true) (hexec : s.execute i = .ok s') :
    Effect s i s' := by
  unfold execute at hexec
  have hd : s.destination i = .memory (s.operand i).address := by
    simp only [destination, haction]
  have hresult : s.result i = op.value ((s.operand i).arch.look (s.operand i).address)
      (Status.value .carry s.status) := by
    simp only [result, haction]
  have hmoved : s.spAfter i = s.sp := by simp only [spAfter, haction]
  have haddress := isRam_of_write hram (s.operand i).address
    (by rw [haction]; simp [Action.accesses])
  rw [haction] at hexec
  have hread : ((s.operand i).arch.memory.afterRead (s.operand i).address).isRam
      (s.operand i).address = true := by
    rw [Memory.isRam_afterRead]
    exact haddress
  -- the byte is read first, and the result goes back to its address
  change (((s.operand i).arch.memory.afterRead (s.operand i).address).writeAt
    (s.operand i).address (op.value ((s.operand i).arch.look (s.operand i).address)
      (Status.value .carry (s.operand i).arch.status))).map _ = _ at hexec
  rw [exec_store hread hexec, operand_carry]
  have h := (((prepared_operand hmoved).read (s.operand i).address).afterAlu op.code
    ((s.operand i).arch.look (s.operand i).address) 0).modified hd hread
    (by simp [haction])
  rw [hresult] at h
  exact h

theorem effect_store {r : Isa.Register} (hi : i ∈ Isa.instructions)
    (haction : actionOn i s.status = .store r)
    (hram : ∀ b, .write b ∈ s.accesses i → s.memory.isRam b = true) (hexec : s.execute i = .ok s') :
    Effect s i s' := by
  unfold execute at hexec
  have hd : s.destination i = .memory (s.operand i).address := by
    simp only [destination, haction]
  have hresult : s.result i = s.reg r := by
    simp only [result, haction]
  have hmoved : s.spAfter i = s.sp := by simp only [spAfter, haction]
  have haddress := isRam_of_write hram (s.operand i).address
    (by rw [haction]; simp [Action.accesses])
  have h := (prepared_operand hmoved).stored hi (by rw [haction]; rfl) (by simp [haction]) hd
    haddress (by simp [haction])
  rw [haction] at hexec
  change ((s.operand i).arch.memory.writeAt (s.operand i).address
    ((s.operand i).arch.reg r)).map _ = _ at hexec
  rw [exec_store haddress hexec, operand_reg s i r]
  rw [hresult] at h
  exact h

theorem effect_xToStack (hi : i ∈ Isa.instructions) (haction : actionOn i s.status = .xToStack)
    (hexec : s.execute i = .ok s') : Effect s i s' := by
  unfold execute at hexec
  have hd : s.destination i = .stackPointer := by simp only [destination, haction]
  have hmoved : s.spAfter i = s.x := by simp only [spAfter, haction]
  rw [haction] at hexec
  cases hexec
  have hloaded : Prepared s i { (s.operand i).arch with sp := (s.operand i).arch.x } := by
    refine ⟨fun r => ?_, ?_, operand_cell s i⟩
    · rw [← operand_reg s i r]
      cases r <;> rfl
    · rw [hmoved]
      exact operand_reg s i .x
  exact hloaded.kept hi (by rw [haction]; rfl) (by simp [haction]) (.inr hd)
    (by simp [haction])

theorem effect_pushAccumulator (hi : i ∈ Isa.instructions)
    (haction : actionOn i s.status = .pushAccumulator)
    (hram : ∀ b, .write b ∈ s.accesses i → s.memory.isRam b = true) (hexec : s.execute i = .ok s') :
    Effect s i s' := by
  unfold execute at hexec
  have hd : s.destination i = .memory (stackAt s.sp) := by simp only [destination, haction]
  have hresult : s.result i = s.a := by simp only [result, haction]
  have hmoved : s.spAfter i = s.sp - 1 := by simp only [spAfter, haction]
  have haddress := isRam_of_write hram (stackAt s.sp)
    (by rw [haction]; simp [Action.accesses])
  have h := effect_push hi (by rw [haction]; rfl) (by simp [haction])
    (by simp [haction]) hd hmoved haddress
  have ha : (s.operand i).arch.a = s.a := operand_reg s i .a
  rw [haction] at hexec
  cases hexec
  rw [hresult, ← ha] at h
  exact h

theorem effect_pushStatus (hi : i ∈ Isa.instructions) (haction : actionOn i s.status = .pushStatus)
    (hram : ∀ b, .write b ∈ s.accesses i → s.memory.isRam b = true) (hexec : s.execute i = .ok s') :
    Effect s i s' := by
  unfold execute at hexec
  have hd : s.destination i = .memory (stackAt s.sp) := by simp only [destination, haction]
  have hresult : s.result i = s.status := by simp only [result, haction]
  have hmoved : s.spAfter i = s.sp - 1 := by simp only [spAfter, haction]
  have haddress := isRam_of_write hram (stackAt s.sp)
    (by rw [haction]; simp [Action.accesses])
  have h := effect_push hi (by rw [haction]; rfl) (by simp [haction])
    (by simp [haction]) hd hmoved haddress
  rw [haction] at hexec
  cases hexec
  rw [operand_status, ← hresult]
  exact h

theorem effect_assign {f : StatusBit} {v : Bool} (hi : i ∈ Isa.instructions)
    (haction : actionOn i s.status = .assign f v) (hexec : s.execute i = .ok s') :
    Effect s i s' := by
  unfold execute at hexec
  have hd : s.destination i = .nowhere := by simp only [destination, haction]
  have hmoved : s.spAfter i = s.sp := by simp only [spAfter, haction]
  rw [haction] at hexec
  cases hexec
  apply ((prepared_operand hmoved).assign f v).kept hi (by rw [haction]; rfl) (by simp [haction])
    (.inl hd)
  intro f' v' h
  rw [haction] at h
  cases h
  show Status.value f (Status.assign f v _) = v
  rw [Status.value_assign, if_pos rfl]

/-- An instruction puts its result where the table of destinations says, and changes nothing else
among the registers, the stack pointer and the memory. -/
theorem effect_execute (hi : i ∈ Isa.instructions)
    (hstay : transfers (actionOn i s.status) = false)
    (hrun : Cpu.stops (actionOn i s.status) = false)
    (hram : ∀ b, .write b ∈ s.accesses i → s.memory.isRam b = true)
    (hexec : s.execute i = .ok s') : Effect s i s' := by
  cases haction : actionOn i s.status with
  -- the actions that put a result somewhere
  | load r => exact effect_load haction hexec
  | accumulate f => exact effect_accumulate haction hexec
  | compare r => exact effect_compare haction hexec
  | bit => exact effect_bit haction hexec
  | modify r op => exact effect_modify haction hexec
  | transfer source target => exact effect_transfer haction hexec
  | stackToX => exact effect_stackToX haction hexec
  | pullAccumulator => exact effect_pullAccumulator haction hexec
  | pullStatus => exact effect_pullStatus haction hexec
  | modifyMemory op => exact effect_modifyMemory haction hram hexec
  | store r => exact effect_store hi haction hram hexec
  | xToStack => exact effect_xToStack hi haction hexec
  | pushAccumulator => exact effect_pushAccumulator hi haction hram hexec
  | pushStatus => exact effect_pushStatus hi haction hram hexec
  | assign f v => exact effect_assign hi haction hexec
  | nop | pass =>
      -- nothing happens behind the operand
      have hd : s.destination i = .nowhere := by simp only [destination, haction]
      have hmoved : s.spAfter i = s.sp := by simp only [spAfter, haction]
      unfold execute at hexec
      rw [haction] at hexec
      cases hexec
      exact (prepared_operand hmoved).kept hi (by rw [haction]; rfl) (by simp [haction]) (.inl hd)
        (by simp [haction])
  | skip =>
      have hd : s.destination i = .nowhere := by simp only [destination, haction]
      have hmoved : s.spAfter i = s.sp := by simp only [spAfter, haction]
      unfold execute at hexec
      rw [haction] at hexec
      cases hexec
      exact ((prepared_operand hmoved).read _).kept hi (by rw [haction]; rfl) (by simp [haction])
        (.inl hd) (by simp [haction])
  -- these stop the CPU or transfer control
  | halt | crash =>
      rw [haction] at hrun
      cases hrun
  | branch | jump | jumpIndirect | call | ret | brk | irq | rti =>
      rw [haction] at hstay
      cases hstay

end Actions

end Arch

/-- An instruction whose stores hit RAM does not fail. -/
theorem Arch.exec_ok {s : Arch} {address : Word} {action : Isa.Action}
    (h : ∀ b, .write b ∈ Action.accesses address s.sp action → s.memory.isRam b = true) :
    ∃ s', s.exec address action = .ok s' := by
  cases action with
  | store r =>
      have haddress := h address (by simp [Action.accesses])
      refine ⟨{ s with memory := s.memory.store address (s.reg r) }, ?_⟩
      show (s.memory.writeAt address (s.reg r)).map _ = _
      rw [Memory.writeAt_store haddress]
      rfl
  | modifyMemory f =>
      have haddress := h address (by simp [Action.accesses])
      rw [← Memory.isRam_afterRead s.memory address] at haddress
      cases hexec : s.exec address (.modifyMemory f) with
      | ok s' => exact ⟨s', rfl⟩
      | error e =>
          change ((s.memory.afterRead address).writeAt address
            (f.value (s.look address) (Status.value .carry s.status))).map _ = _ at hexec
          rw [Memory.writeAt_store haddress] at hexec
          cases hexec
  | _ => exact ⟨_, rfl⟩

namespace Cpu

/-- An instruction that neither transfers control nor stops the CPU, and whose stores hit RAM, puts
its result where it belongs and changes nothing else. -/
theorem executes_effect {cpu : Cpu} (hb : cpu.AtBoundary) (hirq : cpu.takesInterrupt = false)
    {i : InstructionInfo} (hi : i ∈ Isa.instructions)
    (hop : cpu.datapath.memory.byteAt cpu.datapath.pc = i.opcode)
    (hstay : Arch.transfers (actionOn i cpu.datapath.status) = false)
    (hrun : stops (actionOn i cpu.datapath.status) = false)
    (hram : ∀ b, .write b ∈ cpu.datapath.arch.accesses i → cpu.datapath.memory.isRam b = true) :
    ∃ cpu', Executes cpu cpu' ∧ Arch.Effect cpu.datapath.arch i cpu'.datapath.arch := by
  have hnext := (nextOpcode_of_not_taken hirq).trans hop
  have hok : ∃ s', cpu.datapath.arch.execute i = .ok s' := by
    apply Arch.exec_ok
    intro b hb'
    rw [Arch.operand_sp] at hb'
    rw [Arch.operand_isRam]
    exact hram b (List.mem_cons_of_mem _ (List.mem_append_right _ hb'))
  rcases hok with ⟨s', hexec⟩
  rcases exists_executes hb hi hnext hexec with ⟨cpu', hexecutes, rfl, -⟩
  exact ⟨cpu', hexecutes, Arch.effect_execute hi hstay hrun hram hexec⟩

def phaImplied : InstructionInfo := ⟨.pha, 0xC0, .imp, []⟩

def ldaImmediate : InstructionInfo := ⟨.lda, 0x10, .imm, [.zero, .negative]⟩

/-- A load changes neither the stack nor the memory. -/
theorem load_keeps {s s' : Arch} (h : s.execute ldaImmediate = .ok s') :
    s'.sp = s.sp ∧ ∀ b, s'.memory.cell b = s.memory.cell b := by
  cases h
  exact ⟨Arch.operand_sp s ldaImmediate,
    fun b => (Arch.cell_read _ _ b).trans (Arch.operand_cell s ldaImmediate b)⟩

def plaImplied : InstructionInfo := ⟨.pla, 0xC1, .imp, [.zero, .negative]⟩

def plpImplied : InstructionInfo := ⟨.plp, 0xC3, .imp, [.zero, .negative, .carry, .overflow]⟩

/-- A push moves the stack pointer, which is not its destination; PLP loads the zero flag, and does
not set it from the byte it pulls; and over a stale opcode without microcode no instruction
executes. -/
theorem not_executes_effect :
    (∃ cpu cpu' : Cpu, cpu.AtBoundary ∧ cpu.takesInterrupt = false ∧
      cpu.datapath.memory.byteAt cpu.datapath.pc = phaImplied.opcode ∧ Executes cpu cpu' ∧
      cpu.datapath.arch.destination phaImplied ≠ .stackPointer ∧
      cpu'.datapath.sp ≠ cpu.datapath.sp) ∧
    (∃ cpu cpu' : Cpu, cpu.AtBoundary ∧ cpu.takesInterrupt = false ∧
      cpu.datapath.memory.byteAt cpu.datapath.pc = plpImplied.opcode ∧ Executes cpu cpu' ∧
      StatusFlag.zero ∈ plpImplied.flagsAffected ∧ cpu.datapath.arch.result plpImplied = 0 ∧
      Status.value .zero cpu'.datapath.status = false) ∧
    ∃ cpu : Cpu, cpu.Loaded Irata.program ∧ cpu.halted = false ∧ cpu.controller.sc = 0 ∧
      cpu.datapath.memory.LowRam ∧ cpu.takesInterrupt = false ∧
      cpu.datapath.memory.byteAt cpu.datapath.pc = 0x02 ∧ ∀ cpu', ¬Executes cpu cpu' := by
  rcases exists_instructionMemory with ⟨m, hm⟩
  have hpha : phaImplied ∈ Isa.instructions := by decide
  have hplp : plpImplied ∈ Isa.instructions := by decide
  have h₁ : ∃ s, ({ (imageDatapath [phaImplied.opcode]).arch with status := 0 } : Arch).execute
      phaImplied = .ok s ∧ s.sp = 0xFF :=
    ⟨_, rfl, rfl⟩
  have h₂ : ∃ s, ({ (imageDatapath [plpImplied.opcode]).arch with status := 0x02 } : Arch).execute
      plpImplied = .ok s ∧ s.status = 0 :=
    ⟨_, rfl, rfl⟩
  have hresult : ({ (imageDatapath [plpImplied.opcode]).arch with status := 0x02 } : Arch).result
      plpImplied = 0 := rfl
  rcases h₁ with ⟨s₁, h₁, hsp⟩
  rcases h₂ with ⟨s₂, h₂, hstatus⟩
  rcases exists_executes (atBoundary_programStart hm [phaImplied.opcode] 0) hpha
    (nextOpcode_programStart _ _ _ _) h₁ with ⟨t₁, hexec₁, rfl, -⟩
  rcases exists_executes (atBoundary_programStart hm [plpImplied.opcode] 0x02) hplp
    (nextOpcode_programStart _ _ _ _) h₂ with ⟨t₂, hexec₂, rfl, -⟩
  have hirq := @takesInterrupt_of_memory
    (preempted { imageDatapath [0x02] with ir := 0x03 } m) [0x02] rfl rfl
  refine ⟨⟨_, t₁, atBoundary_programStart hm _ _, takesInterrupt_programStart _ _ _,
    opcode_programStart _ _ _ _, hexec₁, ?_, ?_⟩,
    ⟨_, t₂, atBoundary_programStart hm _ _, takesInterrupt_programStart _ _ _,
      opcode_programStart _ _ _ _, hexec₂, by decide, hresult, ?_⟩,
    preempted { imageDatapath [0x02] with ir := 0x03 } m,
    loaded_preempted hm _, rfl, rfl, Memory.lowRam_of_head, hirq,
    Memory.byteAt_image (b := 0) _ (by decide), not_executes_preempted hm rfl hirq⟩
  · intro heq
    cases heq
  · intro heq
    cases hsp.symm.trans heq
  · show Status.value .zero t₂.datapath.arch.status = false
    rw [hstatus]
    decide

/-- AND of the accumulator with the byte behind its opcode. -/
theorem executes_effect_and :
    ∃ cpu cpu' : Cpu, Executes cpu cpu' ∧
      Arch.Effect cpu.datapath.arch ⟨.and, 0x22, .imm, [.zero, .negative]⟩ cpu'.datapath.arch := by
  rcases exists_instructionMemory with ⟨m, hm⟩
  have hnone : ∀ b, .write b ∉ (programStart [0x22, 0x00] 0 m).datapath.arch.accesses
      ⟨.and, 0x22, .imm, [.zero, .negative]⟩ := by
    intro b hb
    simp [Arch.accesses, Arch.operand, Arch.locate, actionOn, Mnemonic.condition,
      Mnemonic.action, Action.accesses] at hb
  exact ⟨_, executes_effect (i := ⟨.and, 0x22, .imm, [.zero, .negative]⟩)
    (atBoundary_programStart hm [0x22, 0x00] 0) (takesInterrupt_programStart _ _ _)
    (by decide) (opcode_programStart _ _ _ _) rfl rfl fun b hb => absurd hb (hnone b)⟩

end Cpu

end Irata2.Sim
