import Irata2.Sim.MultiByte

/-!
# Shifting numbers in memory

The shifts of the bytes of a number in memory, linked by the carry: upwards to the left and
downwards to the right.
-/

namespace Irata2.Isa

/-- The functions of the shift and rotate instructions. -/
def Mnemonic.shiftFunction : Mnemonic → Option Unary
  | .asl => some .shiftLeft
  | .lsr => some .shiftRight
  | .rol => some .rotateLeft
  | .ror => some .rotateRight
  | _ => none

end Irata2.Isa

namespace Irata2.Sim

open Hdl Isa Library

namespace Cpu

/-- The carry between two instructions. -/
def carry (cpu : Cpu) : Bool := Status.value .carry cpu.datapath.status

/-- The number whose bytes are in the given cells, least significant first. -/
def numberAt (cells : List Word) (cpu : Cpu) : Nat :=
  littleEndian (cells.map cpu.datapath.memory.byteAt)

/-- The CPU is about to execute a shift of the given mnemonic on a byte of RAM. -/
structure ShiftsAt (m : Mnemonic) (address : Word) (cpu : Cpu) : Prop where
  boundary : cpu.AtBoundary
  notTaken : cpu.takesInterrupt = false
  instruction : ∃ i ∈ Isa.instructions, i.mnemonic = m ∧ i.addressingMode ≠ .imp ∧
    cpu.datapath.memory.byteAt cpu.datapath.pc = i.opcode ∧
    (cpu.datapath.arch.operand i).address = address
  ram : cpu.datapath.memory.isRam address = true

/-- The carry and the bytes of the number are as before. -/
structure Keeps (cells : List Word) (cpu cpu' : Cpu) : Prop where
  carry : cpu'.carry = cpu.carry
  cell : ∀ b ∈ cells, cpu'.datapath.memory.cell b = cpu.datapath.memory.cell b

/-- A series of shifts of the bytes of a number, where whatever runs in front of each of them keeps
the carry and the number. -/
inductive Shifts (cells : List Word) : Cpu → List (Mnemonic × Word) → Cpu → Prop
  | nil (cpu : Cpu) : Shifts cells cpu [] cpu
  | cons {cpu s t cpu' : Cpu} {m : Mnemonic} {address : Word} {steps : List (Mnemonic × Word)}
      (hrun : Run cpu s) (hkeeps : Keeps cells cpu s) (hat : ShiftsAt m address s)
      (hexec : Executes s t) (htail : Shifts cells t steps cpu') :
      Shifts cells cpu ((m, address) :: steps) cpu'

/-! ## One shift -/

section Shift

variable {m : Mnemonic} {f : Unary} (hf : m.shiftFunction = some f) {address : Word} {cpu : Cpu}
  (h : ShiftsAt m address cpu)

include hf

theorem actionOn_shift {i : InstructionInfo} (hi : i.mnemonic = m) (hmode : i.addressingMode ≠ .imp)
    (status : Byte) : actionOn i status = .modifyMemory f := by
  subst hi
  rcases i with ⟨mnemonic, opcode, mode, flags⟩
  cases mnemonic <;> cases hf <;> cases mode <;> first | rfl | exact absurd rfl hmode

include h

/-- What the shift makes of the architecture: only its byte and the flags change. -/
theorem exists_shifted : ∃ i ∈ Isa.instructions, cpu.nextOpcode = i.opcode ∧
    ∃ s, cpu.datapath.arch.execute i = .ok s ∧
      s.memory.cell address = some (f.value (cpu.datapath.memory.byteAt address) cpu.carry) ∧
      (∀ b, b ≠ address → s.memory.cell b = cpu.datapath.memory.cell b) ∧
      Status.value .carry s.status =
        Alu.carryOut f.code (cpu.datapath.memory.byteAt address) 0 cpu.datapath.status := by
  rcases h.instruction with ⟨i, hi, hm, hmode, hop, haddress⟩
  refine ⟨i, hi, (nextOpcode_of_not_taken h.notTaken).trans hop, ?_⟩
  have haction := actionOn_shift hf hm hmode cpu.datapath.arch.status
  have hstatus := Arch.operand_status cpu.datapath.arch i
  have hcell := fun b => Arch.operand_cell cpu.datapath.arch i b
  rcases Memory.cell_of_isRam h.ram with ⟨v, hv⟩
  have hlook : (cpu.datapath.arch.operand i).arch.look address = v :=
    Memory.byteAt_of_cell ((hcell address).trans hv)
  have hram : ((cpu.datapath.arch.operand i).arch.memory.afterRead address).isRam address = true :=
    (Memory.isRam_afterRead _ _ _).trans ((Arch.operand_isRam _ _ _).trans h.ram)
  rcases Memory.writeAt_of_isRam hram
    (f.value v (Status.value .carry cpu.datapath.status)) with ⟨memory, hw, hwritten⟩
  rw [Memory.byteAt_of_cell hv]
  unfold Arch.execute
  rw [haction, haddress]
  show ∃ s, (Except.map _ (((cpu.datapath.arch.operand i).arch.memory.afterRead address).writeAt
    address (f.value ((cpu.datapath.arch.operand i).arch.look address)
      (Status.value .carry (cpu.datapath.arch.operand i).arch.status)))) = .ok s ∧ _
  rw [hlook, hstatus]
  refine ⟨_, congrArg (Except.map _) hw, hwritten, fun b hb => ?_, ?_⟩
  · exact (Memory.cell_writeAt hw hb).trans ((Memory.cell_afterRead _ _ _).trans (hcell b))
  · rw [Arch.value_result (by decide) (by decide)]
    show Status.value .carry (Alu.execute f.code v 0 0
      (cpu.datapath.arch.operand i).arch.status).status = _
    rw [hstatus]
    rfl

/-- The shift does not fail. -/
theorem exists_executes_shift : ∃ cpu', Executes cpu cpu' := by
  rcases exists_shifted hf h with ⟨i, hi, hnext, s, hexec, -⟩
  rcases exists_executes h.boundary hi hnext hexec with ⟨cpu', hexecutes, -⟩
  exact ⟨cpu', hexecutes⟩

theorem shifted {cpu' : Cpu} (hexec : Executes cpu cpu') :
    cpu'.datapath.memory.cell address =
        some (f.value (cpu.datapath.memory.byteAt address) cpu.carry) ∧
      (∀ b, b ≠ address → cpu'.datapath.memory.cell b = cpu.datapath.memory.cell b) ∧
      cpu'.carry =
        Alu.carryOut f.code (cpu.datapath.memory.byteAt address) 0 cpu.datapath.status := by
  rcases exists_shifted hf h with ⟨i, hi, hnext, s, hs, hcell, hother, hcarry⟩
  have harch := (execute_of_executes h.boundary hi hnext hexec).1
  cases hs.symm.trans harch
  exact ⟨hcell, hother, hcarry⟩

end Shift

/-! ## Series of shifts -/

/-- A byte that has not been reached yet is as it was. -/
theorem Shifts.cell {cells : List Word} {cpu cpu' : Cpu} {steps : List (Mnemonic × Word)}
    (h : Shifts cells cpu steps cpu') (hsteps : ∀ p ∈ steps, p.1.shiftFunction ≠ none) {b : Word}
    (hb : b ∈ cells) (hnot : ∀ p ∈ steps, p.2 ≠ b) :
    cpu'.datapath.memory.cell b = cpu.datapath.memory.cell b := by
  induction h with
  | nil => rfl
  | @cons cpu s t cpu' m address steps _ hkeeps hat hexec _ ih =>
      rcases Option.ne_none_iff_exists'.mp (hsteps (m, address) List.mem_cons_self) with ⟨f, hf⟩
      rw [ih (fun p hp => hsteps p (List.mem_cons_of_mem _ hp))
        (fun p hp => hnot p (List.mem_cons_of_mem _ hp)),
        (shifted hf hat hexec).2.1 b fun he => hnot (m, address) List.mem_cons_self he.symm]
      exact hkeeps.cell b hb

theorem Shifts.append {cells : List Word} {cpu cpu' : Cpu} {steps more : List (Mnemonic × Word)}
    (h : Shifts cells cpu (steps ++ more) cpu') :
    ∃ s, Shifts cells cpu steps s ∧ Shifts cells s more cpu' := by
  induction steps generalizing cpu with
  | nil => exact ⟨cpu, .nil cpu, h⟩
  | cons step steps ih =>
      cases h with
      | cons hrun hkeeps hat hexec htail =>
          rcases ih htail with ⟨s, hs, hmore⟩
          exact ⟨s, .cons hrun hkeeps hat hexec hs, hmore⟩

/-- The byte in a cell. -/
def byteIn (cpu : Cpu) (b : Word) : Nat := (cpu.datapath.memory.byteAt b).toNat

/-- The bytes are in cells of the memory. -/
def Holds (cells : List Word) (cpu : Cpu) : Prop :=
  ∀ b ∈ cells, ∃ v, cpu.datapath.memory.cell b = some v

theorem Holds.byteIn {cells : List Word} {cpu : Cpu} (h : cpu.Holds cells) {b : Word}
    (hb : b ∈ cells) {cpu' : Cpu}
    (heq : cpu'.datapath.memory.cell b = cpu.datapath.memory.cell b) :
    cpu'.byteIn b = cpu.byteIn b := by
  rcases h b hb with ⟨v, hv⟩
  unfold Cpu.byteIn
  rw [Memory.byteAt_of_cell hv, Memory.byteAt_of_cell (heq.trans hv)]

theorem shiftFunction_map {m : Mnemonic} {f : Unary} (hf : m.shiftFunction = some f)
    {addresses : List Word} :
    ∀ p ∈ addresses.map (Prod.mk m), p.1.shiftFunction ≠ none := by
  intro p hp
  rcases List.mem_map.mp hp with ⟨b, -, rfl⟩
  rw [hf]
  exact Option.some_ne_none f

/-- The first shift of a series changes its own byte for good. -/
theorem Shifts.first {cells : List Word} {cpu cpu' : Cpu} {m m' : Mnemonic} {f f' : Unary}
    (hf : m.shiftFunction = some f) (hf' : m'.shiftFunction = some f') {address : Word}
    {rest : List Word} (hsub : ∀ b ∈ address :: rest, b ∈ cells)
    (hnodup : (address :: rest).Nodup) (hholds : cpu.Holds (address :: rest))
    (h : Shifts cells cpu ((m, address) :: rest.map (Prod.mk m')) cpu') :
    ∃ status t, Status.value .carry status = cpu.carry ∧
      Shifts cells t (rest.map (Prod.mk m')) cpu' ∧ t.Holds rest ∧
      (∀ b ∈ rest, t.byteIn b = cpu.byteIn b) ∧
      cpu'.byteIn address =
        (f.value (cpu.datapath.memory.byteAt address) (Status.value .carry status)).toNat ∧
      t.carry = Alu.carryOut f.code (cpu.datapath.memory.byteAt address) 0 status := by
  cases h with
  | @cons _ s t _ _ _ _ _ hkeeps hat hexec htail =>
      rcases shifted hf hat hexec with ⟨hcell, hother, hcarry⟩
      have hmem := hsub address List.mem_cons_self
      rcases hholds address List.mem_cons_self with ⟨v, hv⟩
      have hbyte : s.datapath.memory.byteAt address = cpu.datapath.memory.byteAt address := by
        rw [Memory.byteAt_of_cell hv, Memory.byteAt_of_cell ((hkeeps.cell address hmem).trans hv)]
      have hkept : ∀ b ∈ rest, t.datapath.memory.cell b = cpu.datapath.memory.cell b := by
        intro b hb
        have hne : b ≠ address := fun he => (List.nodup_cons.mp hnodup).1 (he ▸ hb)
        exact (hother b hne).trans (hkeeps.cell b (hsub b (List.mem_cons_of_mem _ hb)))
      -- the later shifts do not come back to the address
      have hfinal := htail.cell (shiftFunction_map hf') hmem (by
        intro p hp
        rcases List.mem_map.mp hp with ⟨b, hb, rfl⟩
        exact fun he => (List.nodup_cons.mp hnodup).1 (he ▸ hb))
      rw [hbyte] at hcell hcarry
      refine ⟨s.datapath.status, t, hkeeps.carry, htail, fun b hb => ?_, fun b hb => ?_, ?_, hcarry⟩
      · rw [hkept b hb]
        exact hholds b (List.mem_cons_of_mem _ hb)
      · exact hholds.byteIn (List.mem_cons_of_mem _ hb) (hkept b hb)
      · exact congrArg BitVec.toNat (Memory.byteAt_of_cell (hfinal.trans hcell))

/-- Rotating to the left doubles the number, upwards from its least byte. -/
theorem Shifts.rotateLeft {cells : List Word} {cpu cpu' : Cpu} {addresses : List Word}
    (hsub : ∀ b ∈ addresses, b ∈ cells) (hnodup : addresses.Nodup) (hholds : cpu.Holds addresses)
    (h : Shifts cells cpu (addresses.map (Prod.mk .rol)) cpu') :
    CarryChain 256 cpu.carry.toNat (addresses.map cpu'.byteIn)
      (addresses.map fun b => 2 * cpu.byteIn b) cpu'.carry.toNat := by
  induction addresses generalizing cpu with
  | nil =>
      cases h
      exact .nil _
  | cons address rest ih =>
      rcases h.first rfl rfl hsub hnodup hholds with
        ⟨status, t, hstatus, htail, hrest, hkept, hbyte, hcarry⟩
      have hdigit := Alu.digit_rotateLeft (cpu.datapath.memory.byteAt address) 0 status
      rw [← hcarry, hstatus] at hdigit
      have hchain := ih (fun b hb => hsub b (List.mem_cons_of_mem _ hb))
        (List.nodup_cons.mp hnodup).2 hrest htail
      have hsame : rest.map (fun b => 2 * t.byteIn b) = rest.map fun b => 2 * cpu.byteIn b :=
        List.map_congr_left fun b hb => congrArg (2 * ·) (hkept b hb)
      rw [hsame] at hchain
      rw [List.map_cons, List.map_cons, hbyte, hstatus]
      exact .cons hdigit hchain

/-- Rotating to the right halves the number, downwards from its most significant byte. -/
theorem Shifts.rotateRight {cells : List Word} {cpu cpu' : Cpu} {addresses : List Word}
    (hsub : ∀ b ∈ addresses, b ∈ cells) (hnodup : addresses.Nodup) (hholds : cpu.Holds addresses)
    (h : Shifts cells cpu (addresses.map (Prod.mk .ror)) cpu') :
    CarryChain 256 cpu'.carry.toNat (addresses.reverse.map cpu.byteIn)
      (addresses.reverse.map fun b => 2 * cpu'.byteIn b) cpu.carry.toNat := by
  induction addresses generalizing cpu with
  | nil =>
      cases h
      exact .nil _
  | cons address rest ih =>
      rcases h.first rfl rfl hsub hnodup hholds with
        ⟨status, t, hstatus, htail, hrest, hkept, hbyte, hcarry⟩
      have hdigit := Alu.digit_rotateRight (cpu.datapath.memory.byteAt address) 0 status
      rw [← hcarry, ← hbyte, hstatus] at hdigit
      have hchain := ih (fun b hb => hsub b (List.mem_cons_of_mem _ hb))
        (List.nodup_cons.mp hnodup).2 hrest htail
      have hsame : rest.reverse.map t.byteIn = rest.reverse.map cpu.byteIn :=
        List.map_congr_left fun b hb => hkept b (List.mem_reverse.mp hb)
      rw [hsame] at hchain
      rw [List.reverse_cons, List.map_append, List.map_append]
      -- the first byte is the most significant one
      exact hchain.append (.single hdigit)

theorem numberAt_eq (cells : List Word) (cpu : Cpu) :
    numberAt cells cpu = Nat.ofDigits 256 (cells.map cpu.byteIn) := by
  unfold numberAt littleEndian byteIn
  rw [List.map_map]
  rfl

theorem ofDigits_double (cells : List Word) (cpu : Cpu) :
    Nat.ofDigits 256 (cells.map fun b => 2 * cpu.byteIn b) = 2 * numberAt cells cpu := by
  rw [numberAt_eq, Nat.mul_ofDigits, List.map_map]
  rfl

theorem numberAt_lt (cells : List Word) (cpu : Cpu) : numberAt cells cpu < 256 ^ cells.length := by
  have h := littleEndian_lt (cells.map cpu.datapath.memory.byteAt)
  rw [List.length_map] at h
  exact h

/-- The carry out of a doubled number. -/
theorem numberAt_of_left {cells : List Word} {cpu cpu' : Cpu} {c : Nat}
    (h : CarryChain 256 c (cells.map cpu'.byteIn) (cells.map fun b => 2 * cpu.byteIn b)
      cpu'.carry.toNat) :
    numberAt cells cpu' = (2 * numberAt cells cpu + c) % 256 ^ cells.length ∧
      (cpu'.carry = true ↔ 256 ^ cells.length ≤ 2 * numberAt cells cpu + c) := by
  have hdigits := h.ofDigits_eq
  rw [← numberAt_eq, ofDigits_double, List.length_map] at hdigits
  exact eq_mod_of_carry (numberAt_lt cells cpu') hdigits

/-- The carry out of a halved number. -/
theorem numberAt_of_right {cells : List Word} {cpu cpu' : Cpu} {c : Nat}
    (h : CarryChain 256 cpu'.carry.toNat (cells.map cpu.byteIn)
      (cells.map fun b => 2 * cpu'.byteIn b) c) :
    numberAt cells cpu + 256 ^ cells.length * c =
      2 * numberAt cells cpu' + cpu'.carry.toNat := by
  have hdigits := h.ofDigits_eq
  rw [← numberAt_eq, ofDigits_double, List.length_map] at hdigits
  exact hdigits

/-- The cells go on holding bytes. -/
theorem Shifts.holds {cells : List Word} {cpu cpu' : Cpu} {steps : List (Mnemonic × Word)}
    (h : Shifts cells cpu steps cpu') (hsteps : ∀ p ∈ steps, p.1.shiftFunction ≠ none)
    (hholds : cpu.Holds cells) : cpu'.Holds cells := by
  induction h with
  | nil => exact hholds
  | @cons cpu s t cpu' m address steps _ hkeeps hat hexec _ ih =>
      rcases Option.ne_none_iff_exists'.mp (hsteps (m, address) List.mem_cons_self) with ⟨f, hf⟩
      rcases shifted hf hat hexec with ⟨hcell, hother, -⟩
      apply ih fun p hp => hsteps p (List.mem_cons_of_mem _ hp)
      intro b hb
      by_cases hba : b = address
      · subst hba
        exact ⟨_, hcell⟩
      · rw [hother b hba, hkeeps.cell b hb]
        exact hholds b hb

/-- ASL on the least byte of a number in memory and ROL on the others double it, LSR on the most
significant byte and ROR on the others halve it, ROL on all bytes takes the carry in, and ROR on
all bytes downwards undoes that.  Every one of these instructions executes. -/
theorem shifts_exact {cells : List Word} (hnodup : cells.Nodup) {cpu : Cpu}
    (hram : ∀ b ∈ cells, cpu.datapath.memory.isRam b = true) :
    (∀ m address (s : Cpu), Mnemonic.shiftFunction m ≠ none → ShiftsAt m address s →
      ∃ t, Executes s t) ∧
    (∀ address rest cpu', cells = address :: rest →
      Shifts cells cpu ((.asl, address) :: rest.map (Prod.mk .rol)) cpu' →
      numberAt cells cpu' = 2 * numberAt cells cpu % 256 ^ cells.length ∧
        (cpu'.carry = true ↔ 256 ^ cells.length ≤ 2 * numberAt cells cpu)) ∧
    (∀ cpu', Shifts cells cpu (cells.map (Prod.mk .rol)) cpu' →
      numberAt cells cpu' =
        (2 * numberAt cells cpu + cpu.carry.toNat) % 256 ^ cells.length) ∧
    (∀ address rest cpu', cells = rest ++ [address] →
      Shifts cells cpu ((.lsr, address) :: rest.reverse.map (Prod.mk .ror)) cpu' →
      numberAt cells cpu' = numberAt cells cpu / 2 ∧
        cpu'.carry.toNat = numberAt cells cpu % 2) ∧
    ∀ cpu', Shifts cells cpu
        (cells.map (Prod.mk .rol) ++ cells.reverse.map (Prod.mk .ror)) cpu' →
      numberAt cells cpu' = numberAt cells cpu ∧ cpu'.carry = cpu.carry := by
  have hholds : cpu.Holds cells := fun b hb => Memory.cell_of_isRam (hram b hb)
  refine ⟨?_, ?_, ?_, ?_, ?_⟩
  · intro m address s hm hat
    rcases Option.ne_none_iff_exists'.mp hm with ⟨f, hf⟩
    exact exists_executes_shift hf hat
  · intro address rest cpu' hcells h
    subst hcells
    rcases h.first rfl rfl (fun _ hb => hb) hnodup hholds with
      ⟨status, t, -, htail, hrest, hkept, hbyte, hcarry⟩
    -- the first shift takes no carry in, the rotations behind it take it over
    have hdigit := Alu.digit_shiftLeft (cpu.datapath.memory.byteAt address) 0 status
    rw [← hcarry, ← hbyte] at hdigit
    have hchain := htail.rotateLeft (fun b hb => List.mem_cons_of_mem _ hb)
      (List.nodup_cons.mp hnodup).2 hrest
    have hsame : rest.map (fun b => 2 * t.byteIn b) = rest.map fun b => 2 * cpu.byteIn b :=
      List.map_congr_left fun b hb => congrArg (2 * ·) (hkept b hb)
    rw [hsame] at hchain
    have hwhole : CarryChain 256 0 ((address :: rest).map cpu'.byteIn)
        ((address :: rest).map fun b => 2 * cpu.byteIn b) cpu'.carry.toNat :=
      .cons hdigit hchain
    exact numberAt_of_left hwhole
  · intro cpu' h
    exact (numberAt_of_left (h.rotateLeft (fun _ hb => hb) hnodup hholds)).1
  · intro address rest cpu' hcells h
    subst hcells
    -- in the order of the shifts, the most significant byte is the first one
    have hperm : ∀ b, b ∈ address :: rest.reverse ↔ b ∈ rest ++ [address] := by
      intro b
      rw [List.mem_cons, List.mem_reverse, List.mem_append, List.mem_singleton, or_comm]
    have hnodup' : (address :: rest.reverse).Nodup := by
      have hreverse := List.nodup_reverse.mpr hnodup
      rw [List.reverse_append] at hreverse
      exact hreverse
    rcases h.first rfl rfl (fun b hb => (hperm b).mp hb) hnodup'
        (fun b hb => hholds b ((hperm b).mp hb)) with
      ⟨status, t, -, htail, hrest, hkept, hbyte, hcarry⟩
    have hdigit := Alu.digit_shiftRight (cpu.datapath.memory.byteAt address) 0 status
    rw [← hcarry, ← hbyte] at hdigit
    have hchain := htail.rotateRight
      (fun b hb => (hperm b).mp (List.mem_cons_of_mem _ hb)) (List.nodup_cons.mp hnodup').2 hrest
    have hsame : rest.reverse.reverse.map t.byteIn = rest.map cpu.byteIn := by
      rw [List.reverse_reverse]
      exact List.map_congr_left fun b hb => hkept b (List.mem_reverse.mpr hb)
    rw [hsame, List.reverse_reverse] at hchain
    have hwhole := hchain.append (.single hdigit)
    have hall : CarryChain 256 cpu'.carry.toNat ((rest ++ [address]).map cpu.byteIn)
        ((rest ++ [address]).map fun b => 2 * cpu'.byteIn b) 0 := by
      rw [List.map_append, List.map_append]
      exact hwhole
    have hnumber := numberAt_of_right hall
    have hbit := Bool.toNat_le cpu'.carry
    omega
  · intro cpu' h
    -- the number times two and the carry is what the second half divides again
    rcases h.append with ⟨s, hup, hdown⟩
    have hleft := (hup.rotateLeft (fun _ hb => hb) hnodup hholds).ofDigits_eq
    have hs := hup.holds (shiftFunction_map rfl) hholds
    have hchain := hdown.rotateRight (fun b hb => List.mem_reverse.mp hb)
      (List.nodup_reverse.mpr hnodup) (fun b hb => hs b (List.mem_reverse.mp hb))
    rw [List.reverse_reverse] at hchain
    have hright := numberAt_of_right hchain
    rw [← numberAt_eq, ofDigits_double, List.length_map] at hleft
    have hbit := Bool.toNat_le cpu.carry
    have hbit' := Bool.toNat_le cpu'.carry
    have hcarry : cpu'.carry.toNat = cpu.carry.toNat := by omega
    have hinjective : ∀ c c' : Bool, c.toNat = c'.toNat → c = c' := by decide
    exact ⟨by omega, hinjective _ _ hcarry⟩

def aslZeroPage : InstructionInfo := ⟨.asl, 0x4A, .zp, [.zero, .negative, .carry]⟩

def rolZeroPage : InstructionInfo := ⟨.rol, 0x4C, .zp, [.zero, .negative, .carry]⟩

/-- ASL $10 and ROL $11 over the number $8181. -/
def aslBytes : List Byte :=
  [0x4A, 0x10, 0x4C, 0x11, 0, 0, 0, 0, 0, 0, 0, 0, 0, 0, 0, 0, 0x81, 0x81]

/-- The program with interrupts disabled. -/
def aslDatapath : Datapath := { imageDatapath aslBytes with status := 0x04 }

theorem shifts_exact_asl :
    ∃ cpu cpu' : Cpu, Shifts [0x10, 0x11] cpu [(.asl, 0x10), (.rol, 0x11)] cpu' ∧
      numberAt [0x10, 0x11] cpu = 0x8181 ∧ numberAt [0x10, 0x11] cpu' = 0x0302 ∧
      cpu'.carry = true := by
  obtain ⟨m, hm⟩ := exists_instructionMemory
  have hasl : aslZeroPage ∈ Isa.instructions := by decide +kernel
  have hrol : rolZeroPage ∈ Isa.instructions := by decide +kernel
  have hstart := undisturbed_start (d := aslDatapath) hm rfl rfl rfl
  have hop : aslDatapath.arch.look aslDatapath.arch.pc = 0x4A := by decide
  have haddress : (aslDatapath.arch.operand aslZeroPage).address = 0x10 := by decide +kernel
  -- ASL $10 and ROL $11, with the carry between them
  have hsteps : ∃ s₁ s₂ : Arch, aslDatapath.arch.execute aslZeroPage = .ok s₁ ∧
      s₁.execute rolZeroPage = .ok s₂ ∧ s₁.status = 0x05 ∧ s₂.status = 0x05 ∧
      s₁.look s₁.pc = 0x4C ∧ (s₁.operand rolZeroPage).address = 0x11 := by
    refine ⟨_, _, rfl, rfl, ?_⟩
    decide +kernel
  obtain ⟨s₁, s₂, h₁, h₂, hp₁, hp₂, hop₁, haddress₁⟩ := hsteps
  obtain ⟨t₁, ht₁, rfl, hu₁⟩ := hstart.exists_executes hasl hop rfl h₁ (by rw [hp₁]; decide)
  obtain ⟨t₂, ht₂, rfl, -⟩ := hu₁.exists_executes hrol hop₁ rfl h₂ (by rw [hp₂]; decide)
  have hlow := hstart.boundary.lowRam
  have hasl₀ : ShiftsAt .asl 0x10 (Cpu.start aslDatapath m) :=
    ⟨hstart.boundary, hstart.notTaken, ⟨_, hasl, rfl, by decide, hop, haddress⟩,
      hlow 0x10 (by decide)⟩
  have hrol₁ : ShiftsAt .rol 0x11 t₁ :=
    ⟨hu₁.boundary, hu₁.notTaken, ⟨_, hrol, rfl, by decide, hop₁, haddress₁⟩,
      hu₁.boundary.lowRam 0x11 (by decide)⟩
  have hshifts : Shifts [0x10, 0x11] (Cpu.start aslDatapath m) [(.asl, 0x10), (.rol, 0x11)] t₂ :=
    .cons .refl ⟨rfl, fun _ _ => rfl⟩ hasl₀ ht₁
      (.cons .refl ⟨rfl, fun _ _ => rfl⟩ hrol₁ ht₂ (.nil _))
  have hnumber : numberAt [0x10, 0x11] (Cpu.start aslDatapath m) = 0x8181 := by
    show littleEndian [aslDatapath.memory.byteAt 0x10, aslDatapath.memory.byteAt 0x11] = 0x8181
    decide +kernel
  have hram : ∀ b ∈ [(0x10 : Word), 0x11],
      (Cpu.start aslDatapath m).datapath.memory.isRam b = true :=
    List.forall_mem_cons.mpr ⟨hlow 0x10 (by decide),
      List.forall_mem_singleton.mpr (hlow 0x11 (by decide))⟩
  have hresult := (shifts_exact (by decide) hram).2.1 0x10 [0x11] t₂ rfl hshifts
  rw [hnumber] at hresult
  exact ⟨_, t₂, hshifts, hnumber, hresult.1.trans (by decide), hresult.2.mpr (by decide)⟩

end Cpu

end Irata2.Sim
