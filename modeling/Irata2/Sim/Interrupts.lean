import Irata2.Sim.Stack

/-!
# Interrupt entry and return

What an interrupt and BRK leave on the stack, and what RTI makes of it.
-/

namespace Irata2.Sim

open Hdl Isa Library Library.StateRun Microcode

/-- The status that an entry pushes: interrupts are disabled before, and the break bit tells BRK from
an interrupt. -/
def entryStatus (b : Bool) (status : Byte) : Byte :=
  Status.assign .brk b (Status.assign .interruptDisable true status)

namespace Arch

/-- The three bytes of an entry, the one that is pulled first in front. -/
def entryBytes (s : Arch) (b : Bool) : List Byte := [entryStatus b s.status, s.pc.low, s.pc.high]

theorem holds_interrupt {s : Arch} (hram : s.memory.LowRam) (b : Bool) :
    (s.interrupt b).sp = s.sp - 3 ∧ (s.interrupt b).Holds (s.entryBytes b) := by
  have hdisabled : (s.assign .interruptDisable true).Holds [] := holds_nil _
  have hword : ((s.assign .interruptDisable true).pushWord s.pc).Holds [s.pc.low, s.pc.high] :=
    @holds_pushWord _ (lowRam_assign hram _ _) [] s.pc hdisabled (Nat.le_of_ble_eq_true rfl)
  have hbreak : (((s.assign .interruptDisable true).pushWord s.pc).assign .brk b).Holds
      [s.pc.low, s.pc.high] := hword
  have hstatus := holds_push (lowRam_assign (lowRam_pushWord (lowRam_assign hram _ _) _) _ _) hbreak
    (Nat.le_of_ble_eq_true rfl) (entryStatus b s.status)
  refine ⟨?_, ?_⟩
  · show s.sp - 1 - 1 - 1 = s.sp - 3
    rw [BitVec.sub_sub, BitVec.sub_sub]
    rfl
  · -- the vector is read last, which moves neither the stack pointer nor a cell
    refine hstatus.congr rfl ?_
    intro a
    show ((Memory.afterRead _ _).afterRead _).cell _ = _
    rw [Memory.cell_afterRead, Memory.cell_afterRead]
    rfl

/-- What RTI does with the bytes of an entry. -/
theorem exec_rti {s : Arch} {status : Byte} {w : Word} {address : Word}
    (h : s.Holds [status, w.low, w.high]) :
    ∃ t, s.exec address .rti = .ok t ∧ t.status = status ∧ t.pc = w ∧ t.sp = s.sp + 3 := by
  have hpulled : s.pull.Holds [w.low, w.high] := holds_pull h
  have htop : s.top = status := top_of_holds h
  have hrest : ({ s.pull with status := s.top } : Arch).Holds (outstanding [.word w]) :=
    hpulled.congr rfl fun _ => rfl
  rcases pullPc_of_holds hrest with ⟨hpc, hsp, -⟩
  refine ⟨_, rfl, htop, hpc, ?_⟩
  rw [hsp]
  show s.sp + 1 + 2 = s.sp + 3
  rw [BitVec.add_assoc]
  rfl

end Arch

namespace Cpu

/-! ## Entries -/

/-- The break bit that an entry pushes. -/
def isBreak (m : Mnemonic) : Bool := m == .brk

/-- An entry is taken: the interrupt that is injected, or BRK. -/
def Enters (m : Mnemonic) (cpu cpu' : Cpu) : Prop :=
  (m = .irq ∧ cpu.takesInterrupt = true ∨ m = .brk ∧ cpu.takesInterrupt = false) ∧
    Executing m cpu cpu'

theorem implied_of_entry {i : InstructionInfo} (hi : i ∈ Isa.instructions)
    (hm : i.mnemonic = .irq ∨ i.mnemonic = .brk ∨ i.mnemonic = .rti) : i.addressingMode = .imp := by
  have hall : ∀ i ∈ Isa.instructions,
      i.mnemonic = .irq ∨ i.mnemonic = .brk ∨ i.mnemonic = .rti → i.addressingMode = .imp := by
    decide +kernel
  exact hall i hi hm

/-- An entry moves the stack pointer by three and leaves the status and the address behind the
opcode byte on the stack. -/
theorem ends_entry {m : Mnemonic} (hm : m = .irq ∨ m = .brk) {cpu : Cpu} (h : Before m cpu) :
    Ends cpu fun t => t.datapath.sp = cpu.datapath.sp - 3 ∧
      t.datapath.arch.Holds [entryStatus (isBreak m) cpu.datapath.status,
        (cpu.datapath.pc + 1).low, (cpu.datapath.pc + 1).high] := by
  have hcondition : m.condition = none := by
    rcases hm with rfl | rfl <;> rfl
  apply ends_of_exec (P := fun s => s.sp = cpu.datapath.sp - 3 ∧
    s.Holds [entryStatus (isBreak m) cpu.datapath.status, (cpu.datapath.pc + 1).low,
      (cpu.datapath.pc + 1).high]) hcondition h
  intro i hi hmn
  have himp : i.addressingMode = .imp := by
    apply implied_of_entry hi
    rcases hm with rfl | rfl
    · exact .inl hmn
    · exact .inr (.inl hmn)
  have hoperand : (cpu.datapath.arch.operand i).arch = cpu.datapath.arch.next := by
    unfold Arch.operand
    rw [himp]
    rfl
  have hinterrupt := @Arch.holds_interrupt cpu.datapath.arch.next
    (@Arch.lowRam_read cpu.datapath.arch h.1.lowRam _) (isBreak m)
  rw [hoperand]
  rcases hm with rfl | rfl
  · exact ⟨_, rfl, hinterrupt⟩
  · exact ⟨_, rfl, hinterrupt⟩

/-- RTI takes the three bytes of an entry off the stack. -/
theorem ends_rti {cpu : Cpu} (h : Before .rti cpu) {status : Byte} {w : Word}
    (hbytes : cpu.datapath.arch.Holds [status, w.low, w.high]) :
    Ends cpu fun t => t.datapath.status = status ∧ t.datapath.pc = w ∧
      t.datapath.sp = cpu.datapath.sp + 3 := by
  apply ends_of_exec (P := fun s => s.status = status ∧ s.pc = w ∧ s.sp = cpu.datapath.sp + 3)
    rfl h
  intro i _ _
  have hexec := @Arch.exec_rti _ _ _ (cpu.datapath.arch.operand i).address
    (operand_holds hbytes i)
  rw [Arch.operand_sp] at hexec
  exact hexec

/-! ## The return address -/

/-- The address that RTI would return to. -/
def returnAddress (cpu : Cpu) : Word :=
  Word.ofBytes (cpu.datapath.memory.byteAt (stackAt (cpu.datapath.sp + 3)))
    (cpu.datapath.memory.byteAt (stackAt (cpu.datapath.sp + 2)))

theorem returnAddress_of_holds {cpu : Cpu} {status : Byte} {w : Word}
    (h : cpu.datapath.arch.Holds [status, w.low, w.high]) : cpu.returnAddress = w := by
  have htwo : cpu.datapath.sp + 1 + BitVec.ofNat 8 1 = cpu.datapath.sp + 2 :=
    BitVec.add_assoc _ _ _
  have hthree : cpu.datapath.sp + 1 + BitVec.ofNat 8 2 = cpu.datapath.sp + 3 :=
    BitVec.add_assoc _ _ _
  have hlow : cpu.datapath.memory.cell (stackAt (cpu.datapath.sp + 2)) = some w.low := by
    rw [← htwo]
    exact h 1 _ rfl
  have hhigh : cpu.datapath.memory.cell (stackAt (cpu.datapath.sp + 3)) = some w.high := by
    rw [← hthree]
    exact h 2 _ rfl
  unfold returnAddress
  rw [Memory.byteAt_of_cell hlow, Memory.byteAt_of_cell hhigh, Word.ofBytes_high_low]

/-- The injected entry pushes the address of the instruction that it pre-empts, and RTI goes back
there. -/
def ResumesPreempted (cpu : Cpu) : Prop :=
  ∀ cpu', Enters .irq cpu cpu' → cpu'.returnAddress = cpu.datapath.pc ∧
    ∀ cpu'', Executing .rti cpu' cpu'' → cpu''.datapath.pc = cpu.datapath.pc

theorem before_irq {cpu : Cpu} (hb : cpu.AtBoundary) (hirq : cpu.takesInterrupt = true) :
    Before .irq cpu := by
  refine ⟨hb, ⟨.irq, 0x00, .imp, []⟩, by decide, rfl, ?_⟩
  unfold nextOpcode
  rw [hirq]
  rfl

theorem pc_add_one_ne (pc : Word) : pc + 1 ≠ pc := by
  intro h
  have hnat := congrArg BitVec.toNat h
  have hlt := pc.isLt
  rw [BitVec.toNat_add] at hnat
  change (pc.toNat + 1) % 2 ^ 16 = pc.toNat at hnat
  omega

/-- The entry has stepped over the byte that it does not execute: it pushes the address behind it,
and RTI goes there. -/
theorem resumes_behind {cpu : Cpu} (hb : cpu.AtBoundary) (hirq : cpu.takesInterrupt = true) :
    ¬ResumesPreempted cpu ∧
      ∃ cpu', Enters .irq cpu cpu' ∧ cpu'.returnAddress = cpu.datapath.pc + 1 ∧
        ∀ cpu'', Executing .rti cpu' cpu'' → cpu''.datapath.pc = cpu.datapath.pc + 1 := by
  have hbefore := before_irq hb hirq
  rcases ends_entry (.inl rfl) hbefore with ⟨cpu', huniq, -, hholds⟩
  have henters : Enters .irq cpu cpu' := ⟨.inl ⟨rfl, hirq⟩, hbefore, (huniq cpu').mpr rfl⟩
  have haddress := returnAddress_of_holds hholds
  refine ⟨?_, cpu', henters, haddress, ?_⟩
  · intro hresumes
    rw [(hresumes cpu' henters).1] at haddress
    exact pc_add_one_ne _ haddress.symm
  · intro cpu'' hrti
    exact ((ends_rti hrti.1 hholds).of_executes hrti.2).2.1

/-! ## The status -/

/-- A handler that leaves the three bytes of the entry and the stack pointer as it found them. -/
structure Balanced (entered returning : Cpu) : Prop where
  run : Run entered returning
  sp : returning.datapath.sp = entered.datapath.sp
  stack : ∀ k, k < 3 →
    returning.datapath.memory.cell (stackAt (entered.datapath.sp + 1 + BitVec.ofNat 8 k)) =
      entered.datapath.memory.cell (stackAt (entered.datapath.sp + 1 + BitVec.ofNat 8 k))

theorem Balanced.holds {entered returning : Cpu} (h : Balanced entered returning)
    {bytes : List Byte} (hlength : bytes.length = 3)
    (hbytes : entered.datapath.arch.Holds bytes) : returning.datapath.arch.Holds bytes := by
  intro k v hk
  have hlt := (List.getElem?_eq_some_iff.mp hk).1
  have hcell := hbytes k v hk
  show returning.datapath.memory.cell (stackAt (returning.datapath.sp + 1 + _)) = some v
  rw [h.sp, h.stack k (by omega)]
  exact hcell

theorem status_of_return {m : Mnemonic} {cpu entered returning returned : Cpu}
    (henter : Enters m cpu entered) (hhandler : Balanced entered returning)
    (hreturn : Executing .rti returning returned) :
    returned.datapath.status = entryStatus (isBreak m) cpu.datapath.status ∧
      returned.datapath.sp = cpu.datapath.sp := by
  have hm : m = .irq ∨ m = .brk := henter.1.imp And.left And.left
  rcases (ends_entry hm henter.2.1).of_executes henter.2.2 with ⟨hsp, hholds⟩
  have hreturning := hhandler.holds rfl hholds
  rcases (ends_rti hreturn.1 hreturning).of_executes hreturn.2 with ⟨hstatus, -, hsp'⟩
  refine ⟨hstatus, ?_⟩
  rw [hsp', hhandler.sp, hsp]
  exact BitVec.sub_add_cancel _ _

/-- RTI restores the stack pointer and every status bit but two: break is left as the entry has
pushed it, and interrupt-disable is left out here. -/
theorem interrupt_return {m : Mnemonic} {cpu entered returning returned : Cpu}
    (henter : Enters m cpu entered) (hhandler : Balanced entered returning)
    (hreturn : Executing .rti returning returned) :
    returned.datapath.sp = cpu.datapath.sp ∧
      Status.value .brk returned.datapath.status = isBreak m ∧
      ∀ f, f ≠ .interruptDisable → f ≠ .brk →
        Status.value f returned.datapath.status = Status.value f cpu.datapath.status := by
  rcases status_of_return henter hhandler hreturn with ⟨hstatus, hsp⟩
  refine ⟨hsp, ?_, ?_⟩
  · rw [hstatus]
    unfold entryStatus
    rw [Status.value_assign, if_pos rfl]
  · intro f hdisable hbreak
    rw [hstatus]
    unfold entryStatus
    rw [Status.value_assign, if_neg hbreak, Status.value_assign, if_neg hdisable]

/-- A cartridge full of RTI, so that the vector leads to RTI. -/
def rtiCartridge : Region :=
  ⟨"cartridge", 0x8000, 0x8000, .rom fun _ => 0xE6, isPowerOfTwo_cartridge, aligned_cartridge⟩

def brkMemory : Memory :=
  ⟨[Memory.ramOf fun _ => 0xE5, rtiCartridge], disjoint_of_firstOverlap (by rfl)⟩

def brkDatapath : Datapath := (initial brkMemory ⟨[], [], ⟨0, 0⟩⟩).datapath

/-- BRK, and RTI as its handler. -/
theorem exists_brk_rti : ∃ cpu entered returned : Cpu, cpu.datapath.status = 0 ∧
    Enters .brk cpu entered ∧ Balanced entered entered ∧ Executing .rti entered returned := by
  rcases exists_instructionMemory with ⟨m, hm⟩
  have hbrk : (⟨.brk, 0xE5, .imp, []⟩ : InstructionInfo) ∈
      Isa.instructions := by
    decide
  have hrti : (⟨.rti, 0xE6, .imp, []⟩ : InstructionInfo) ∈ Isa.instructions := by
    decide
  have hb := atBoundary_start hm (d := brkDatapath) exists_nop Memory.lowRam_of_head
  have hline : (start brkDatapath m).takesInterrupt = false := rfl
  have hnext : (start brkDatapath m).nextOpcode = 0xE5 :=
    (nextOpcode_of_not_taken hline).trans
      (show brkDatapath.memory.byteAt 0 = 0xE5 by decide)
  have hexec : ∃ s, brkDatapath.arch.execute ⟨.brk, 0xE5, .imp, []⟩ = .ok s ∧
      Status.value .interruptDisable s.status = true ∧ s.look s.pc = 0xE6 :=
    ⟨_, rfl, by decide, by decide⟩
  rcases hexec with ⟨s, hexec, hstatus, hlook⟩
  rcases exists_executes hb hbrk hnext hexec with ⟨entered, hexecutes, rfl, -⟩
  have hboundary := atBoundary_of_executes hb hbrk hnext hline rfl hexecutes
  -- the entry has disabled interrupts, so that RTI is not pre-empted
  have hirq : entered.takesInterrupt = false := by
    unfold takesInterrupt
    rw [show Status.value .interruptDisable entered.datapath.status = true from hstatus]
    exact Bool.and_false _
  have hbefore : Before .rti entered :=
    ⟨hboundary, _, hrti, rfl, (nextOpcode_of_not_taken hirq).trans hlook⟩
  have hstart : Executing .brk (start brkDatapath m) entered :=
    ⟨⟨hb, _, hbrk, rfl, hnext⟩, hexecutes⟩
  have hholds := ((ends_entry (.inr rfl) hstart.1).of_executes hstart.2).2
  rcases ends_rti hbefore hholds with ⟨returned, huniq, -⟩
  exact ⟨_, entered, returned, rfl, ⟨.inr ⟨rfl, hline⟩, hstart⟩, ⟨.refl, rfl, fun _ _ => rfl⟩,
    hbefore, (huniq returned).mpr rfl⟩

theorem interrupt_return_brk : ∃ cpu returned : Cpu,
    returned.datapath.sp = cpu.datapath.sp ∧
      Status.value .brk returned.datapath.status = isBreak .brk ∧
      ∀ f, f ≠ .interruptDisable → f ≠ .brk →
        Status.value f returned.datapath.status = Status.value f cpu.datapath.status := by
  rcases exists_brk_rti with ⟨cpu, entered, returned, -, henter, hhandler, hreturn⟩
  exact ⟨cpu, returned, interrupt_return henter hhandler hreturn⟩

/-- BRK with a clear status comes back with interrupts disabled and the break bit set. -/
theorem not_status_restored_brk : ∃ cpu entered returned : Cpu,
    Enters .brk cpu entered ∧ Balanced entered entered ∧ Executing .rti entered returned ∧
      cpu.datapath.status = 0 ∧ returned.datapath.status = 0x14 := by
  rcases exists_brk_rti with ⟨cpu, entered, returned, hzero, henter, hhandler, hreturn⟩
  refine ⟨cpu, entered, returned, henter, hhandler, hreturn, hzero, ?_⟩
  rw [(status_of_return henter hhandler hreturn).1, hzero]
  decide

end Cpu

end Irata2.Sim
