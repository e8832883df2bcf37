import Irata2.Sim.Destination

/-!
# The stack

The stack pointer walks down a page of 256 bytes and wraps around in it.  As long as no more bytes
are outstanding than the page holds, what was pushed last is pulled first.
-/

namespace Irata2.Sim

open Hdl Isa Library Library.StateRun Microcode

namespace Arch

/-! ## Bytes on the stack -/

/-- The bytes lie on the stack, the first one to be pulled first. -/
def Holds (s : Arch) (bytes : List Byte) : Prop :=
  ∀ k v, bytes[k]? = some v → s.memory.cell (stackAt (s.sp + 1 + BitVec.ofNat 8 k)) = some v

theorem holds_nil (s : Arch) : s.Holds [] := by
  intro k v h
  cases h

/-- Only the stack pointer and the stack page matter. -/
theorem Holds.congr {s t : Arch} {bytes : List Byte} (h : s.Holds bytes) (hsp : t.sp = s.sp)
    (hcell : ∀ b, t.memory.cell (stackAt b) = s.memory.cell (stackAt b)) : t.Holds bytes := by
  intro k v hk
  rw [hsp, hcell]
  exact h k v hk

theorem stackAt_injective {a b : Byte} (h : stackAt a = stackAt b) : a = b := by
  have hlow := congrArg Word.low h
  unfold stackAt at hlow
  rw [Word.low_ofBytes, Word.low_ofBytes] at hlow
  exact hlow

theorem holds_push {s : Arch} (hram : s.memory.LowRam) {bytes : List Byte} (h : s.Holds bytes)
    (hlength : bytes.length < 256) (v : Byte) : (s.push v).Holds (v :: bytes) := by
  intro k w hk
  show (s.memory.store (stackAt s.sp) v).cell (stackAt (s.sp - 1 + 1 + BitVec.ofNat 8 k)) = some w
  rw [cell_store_eq (hram.stackAt s.sp), BitVec.sub_add_cancel]
  cases k with
  | zero =>
      cases hk
      rw [if_pos (by rw [BitVec.add_zero])]
  | succ k =>
      have hw : bytes[k]? = some w := hk
      have hlt := (List.getElem?_eq_some_iff.mp hw).1
      -- the page has not wrapped around onto the new byte
      have hne : stackAt s.sp ≠ stackAt (s.sp + BitVec.ofNat 8 (k + 1)) := by
        intro heq
        have hsp := congrArg BitVec.toNat (stackAt_injective heq)
        rw [BitVec.toNat_add, BitVec.toNat_ofNat] at hsp
        have hbyte := s.sp.isLt
        omega
      have hone : s.sp + 1 + BitVec.ofNat 8 k = s.sp + BitVec.ofNat 8 (k + 1) := by
        rw [BitVec.add_assoc, Nat.add_comm k 1, BitVec.ofNat_add]
        rfl
      rw [if_neg hne, ← hone]
      exact h k w hw

theorem top_of_holds {s : Arch} {v : Byte} {bytes : List Byte} (h : s.Holds (v :: bytes)) :
    s.top = v := by
  have hcell := h 0 v rfl
  rw [BitVec.add_zero] at hcell
  exact Memory.byteAt_of_cell hcell

theorem holds_pull {s : Arch} {v : Byte} {bytes : List Byte} (h : s.Holds (v :: bytes)) :
    s.pull.Holds bytes := by
  intro k w hk
  have hone : s.sp + 1 + 1 + BitVec.ofNat 8 k = s.sp + 1 + BitVec.ofNat 8 (k + 1) := by
    rw [BitVec.add_assoc (s.sp + 1), Nat.add_comm k 1, BitVec.ofNat_add]
    rfl
  show (s.memory.afterRead _).cell (stackAt (s.sp + 1 + 1 + BitVec.ofNat 8 k)) = some w
  rw [Memory.cell_afterRead, hone]
  exact h (k + 1) w hk

end Arch

/-! ## Frames -/

/-- What one push leaves to its pull: a byte, or the return address of a call. -/
inductive Frame
  | byte (v : Byte)
  | word (w : Word)
  deriving DecidableEq, Repr

namespace Frame

/-- The bytes of a frame, the one that is pulled first in front. -/
def bytes : Frame → List Byte
  | .byte v => [v]
  | .word w => [w.low, w.high]

end Frame

/-- The outstanding bytes. -/
def outstanding (frames : List Frame) : List Byte := frames.flatMap Frame.bytes

theorem length_outstanding_cons (frame : Frame) (frames : List Frame) :
    (outstanding (frame :: frames)).length = frame.bytes.length + (outstanding frames).length :=
  List.length_append

namespace Arch

theorem holds_pushWord {s : Arch} (hram : s.memory.LowRam) {frames : List Frame} {w : Word}
    (h : s.Holds (outstanding frames))
    (hlength : (outstanding (.word w :: frames)).length ≤ 256) :
    (s.pushWord w).Holds (outstanding (.word w :: frames)) := by
  have hcount : (outstanding (.word w :: frames)).length = 2 + (outstanding frames).length :=
    length_outstanding_cons _ _
  have hhigh := holds_push hram h (by omega) w.high
  exact holds_push (lowRam_push hram w.high) hhigh
    (by rw [List.length_cons]; omega) w.low

theorem pullPc_of_holds {s : Arch} {frames : List Frame} {w : Word}
    (h : s.Holds (outstanding (.word w :: frames))) :
    s.pullPc.pc = w ∧ s.pullPc.sp = s.sp + 2 ∧ s.pullPc.Holds (outstanding frames) := by
  have hlow : s.top = w.low := top_of_holds h
  have hpulled : s.pull.Holds (w.high :: outstanding frames) := holds_pull h
  have hhigh : s.pull.top = w.high := top_of_holds hpulled
  refine ⟨?_, ?_, ?_⟩
  · show Word.ofBytes s.pull.top s.top = w
    rw [hhigh, hlow, Word.ofBytes_high_low]
  · show s.sp + 1 + 1 = s.sp + 2
    rw [BitVec.add_assoc]
    rfl
  · exact holds_pull hpulled

end Arch

namespace Cpu

/-! ## Instructions of the stack -/

/-- The CPU is at a boundary, before an instruction of the mnemonic. -/
def Before (m : Mnemonic) (cpu : Cpu) : Prop :=
  cpu.AtBoundary ∧ ∃ i ∈ Isa.instructions, i.mnemonic = m ∧ cpu.nextOpcode = i.opcode

/-- The instruction ends in one state, of which `P` holds. -/
def Ends (cpu : Cpu) (P : Cpu → Prop) : Prop :=
  ∃ cpu', (∀ t, Executes cpu t ↔ t = cpu') ∧ P cpu'

/-- An unconditional instruction, by its action. -/
theorem ends_of_exec {m : Mnemonic} (hm : m.condition = none) {cpu : Cpu} (h : Before m cpu)
    {P : Arch → Prop}
    (hexec : ∀ i ∈ Isa.instructions, i.mnemonic = m → ∃ s,
      (cpu.datapath.arch.operand i).arch.exec (cpu.datapath.arch.operand i).address
        (m.action i.addressingMode) = .ok s ∧ P s) :
    Ends cpu fun t => P t.datapath.arch := by
  rcases h with ⟨hb, i, hi, himn, hnext⟩
  rcases hexec i hi himn with ⟨s, hs, hP⟩
  have haction : actionOn i cpu.datapath.arch.status = m.action i.addressingMode := by
    unfold actionOn
    rw [himn, hm]
  have hexecute : cpu.datapath.arch.execute i = .ok s := by
    unfold Arch.execute
    rw [haction]
    exact hs
  rcases exists_executes hb hi hnext hexecute with ⟨cpu', hexecutes, rfl, -⟩
  refine ⟨cpu', ?_, hP⟩
  intro t
  rw [executes_iff hb hi hnext] at hexecutes ⊢
  rw [hexecutes]
  constructor
  · intro heq
    cases heq
    rfl
  · intro heq
    rw [heq]

/-- What holds where the instruction ends holds of every state in which it has been executed. -/
theorem Ends.of_executes {cpu cpu' : Cpu} {P : Cpu → Prop} (h : Ends cpu P)
    (hexec : Executes cpu cpu') : P cpu' := by
  rcases h with ⟨t, huniq, hP⟩
  rw [(huniq cpu').mp hexec]
  exact hP

/-- The state in which an instruction without an operand, or with an absolute one, acts. -/
theorem operand_holds {cpu : Cpu} {bytes : List Byte} (h : cpu.datapath.arch.Holds bytes)
    (i : InstructionInfo) : (cpu.datapath.arch.operand i).arch.Holds bytes :=
  h.congr (Arch.operand_sp _ i) fun b => Arch.operand_cell _ i (stackAt b)

theorem operand_lowRam {cpu : Cpu} (h : cpu.datapath.memory.LowRam) (i : InstructionInfo) :
    (cpu.datapath.arch.operand i).arch.memory.LowRam :=
  Bodies.locate_lowRam (s := cpu.datapath.arch.next)
    (Arch.lowRam_read (s := cpu.datapath.arch) h _) i.addressingMode

/-- The byte that a push instruction pushes. -/
def pushed (m : Mnemonic) (cpu : Cpu) : Byte :=
  if m = .php then cpu.datapath.status else cpu.datapath.a

def isPush (m : Mnemonic) : Prop := m = .pha ∨ m = .php

def isPull (m : Mnemonic) : Prop := m = .pla ∨ m = .plp

/-- The register that a pull instruction fills. -/
def pulled (m : Mnemonic) (cpu : Cpu) : Byte :=
  if m = .plp then cpu.datapath.status else cpu.datapath.a

theorem ends_push {m : Mnemonic} (hm : isPush m) {cpu : Cpu} (h : Before m cpu)
    {bytes : List Byte} (hbytes : cpu.datapath.arch.Holds bytes) (hroom : bytes.length < 256) :
    Ends cpu fun t => t.datapath.sp = cpu.datapath.sp - 1 ∧
      t.datapath.arch.Holds (pushed m cpu :: bytes) := by
  have hpush : ∀ (i : InstructionInfo) (v : Byte),
      ((cpu.datapath.arch.operand i).arch.push v).sp = cpu.datapath.sp - 1 ∧
        ((cpu.datapath.arch.operand i).arch.push v).Holds (v :: bytes) := by
    intro i v
    refine ⟨?_, Arch.holds_push (operand_lowRam h.1.lowRam i) (operand_holds hbytes i) hroom v⟩
    show (cpu.datapath.arch.operand i).arch.sp - 1 = _
    rw [Arch.operand_sp]
    rfl
  rcases hm with rfl | rfl
  · apply ends_of_exec (P := fun s => s.sp = cpu.datapath.sp - 1 ∧
      s.Holds (pushed .pha cpu :: bytes)) rfl h
    intro i _ _
    refine ⟨_, rfl, ?_⟩
    have ha : (cpu.datapath.arch.operand i).arch.a = cpu.datapath.a := Arch.operand_reg _ i .a
    rw [ha]
    exact hpush i cpu.datapath.a
  · apply ends_of_exec (P := fun s => s.sp = cpu.datapath.sp - 1 ∧
      s.Holds (pushed .php cpu :: bytes)) rfl h
    intro i _ _
    refine ⟨_, rfl, ?_⟩
    rw [Arch.operand_status]
    exact hpush i cpu.datapath.status

theorem ends_pull {m : Mnemonic} (hm : isPull m) {cpu : Cpu} (h : Before m cpu) {v : Byte}
    {bytes : List Byte} (hbytes : cpu.datapath.arch.Holds (v :: bytes)) :
    Ends cpu fun t => pulled m t = v ∧ t.datapath.sp = cpu.datapath.sp + 1 ∧
      t.datapath.arch.Holds bytes := by
  have hpull : ∀ i : InstructionInfo,
      (cpu.datapath.arch.operand i).arch.top = v ∧
        (cpu.datapath.arch.operand i).arch.pull.sp = cpu.datapath.sp + 1 ∧
        (cpu.datapath.arch.operand i).arch.pull.Holds bytes := by
    intro i
    have hholds := operand_holds hbytes i
    refine ⟨Arch.top_of_holds hholds, ?_, Arch.holds_pull hholds⟩
    show (cpu.datapath.arch.operand i).arch.sp + 1 = _
    rw [Arch.operand_sp]
    rfl
  rcases hm with rfl | rfl
  · apply ends_of_exec (P := fun s => s.a = v ∧ s.sp = cpu.datapath.sp + 1 ∧ s.Holds bytes) rfl h
    intro i _ _
    exact ⟨_, rfl, (hpull i).1, (hpull i).2.1, (hpull i).2.2⟩
  · apply ends_of_exec (P := fun s => s.status = v ∧ s.sp = cpu.datapath.sp + 1 ∧ s.Holds bytes)
      rfl h
    intro i _ _
    exact ⟨_, rfl, (hpull i).1, (hpull i).2.1, (hpull i).2.2⟩

/-- A call leaves the address behind itself. -/
theorem ends_call {cpu : Cpu} (h : Before .jsr cpu) {frames : List Frame}
    (hframes : cpu.datapath.arch.Holds (outstanding frames))
    (hroom : (outstanding (.word (cpu.datapath.pc + 3) :: frames)).length ≤ 256) :
    Ends cpu fun t => t.datapath.sp = cpu.datapath.sp - 2 ∧
      t.datapath.arch.Holds (outstanding (.word (cpu.datapath.pc + 3) :: frames)) := by
  apply ends_of_exec (P := fun s => s.sp = cpu.datapath.sp - 2 ∧
    s.Holds (outstanding (.word (cpu.datapath.pc + 3) :: frames))) rfl h
  intro i hi hmn
  refine ⟨_, rfl, ?_, ?_⟩
  · show (cpu.datapath.arch.operand i).arch.sp - 1 - 1 = _
    rw [Arch.operand_sp]
    exact BitVec.sub_sub _ 1 1
  · have habsolute : ∀ i ∈ Isa.instructions, i.mnemonic = .jsr → i.addressingMode = .abs := by
      decide +kernel
    have hpc : (cpu.datapath.arch.operand i).arch.pc = cpu.datapath.pc + 3 := by
      unfold Arch.operand
      rw [Arch.locate_pc, habsolute i hi hmn]
      exact BitVec.add_assoc cpu.datapath.pc 1 2
    have hholds := Arch.holds_pushWord (operand_lowRam h.1.lowRam i) (operand_holds hframes i) hroom
    rw [hpc]
    exact hholds

theorem ends_ret {cpu : Cpu} (h : Before .rts cpu) {w : Word} {frames : List Frame}
    (hframes : cpu.datapath.arch.Holds (outstanding (.word w :: frames))) :
    Ends cpu fun t => t.datapath.pc = w ∧ t.datapath.sp = cpu.datapath.sp + 2 ∧
      t.datapath.arch.Holds (outstanding frames) := by
  apply ends_of_exec (P := fun s => s.pc = w ∧ s.sp = cpu.datapath.sp + 2 ∧
    s.Holds (outstanding frames)) rfl h
  intro i _ _
  refine ⟨_, rfl, ?_⟩
  have hpull := Arch.pullPc_of_holds (operand_holds hframes i)
  rw [Arch.operand_sp] at hpull
  exact hpull

/-! ## Nested runs -/

/-- The CPU executes an instruction of the mnemonic, from one boundary on. -/
def Executing (m : Mnemonic) (cpu cpu' : Cpu) : Prop := Before m cpu ∧ Executes cpu cpu'

/-- A well-nested run from `start`, with the frames that are outstanding, the last one in front.
Between the pushes and the pulls anything may happen that leaves the stack alone. -/
inductive Nested (start : Cpu) : List Frame → Cpu → Prop
  | start : Nested start [] start
  | push {m : Mnemonic} {frames : List Frame} {cpu cpu' : Cpu} (h : Nested start frames cpu)
      (hm : isPush m) (hexec : Executing m cpu cpu')
      (hroom : (outstanding (.byte (pushed m cpu) :: frames)).length ≤ 256) :
      Nested start (.byte (pushed m cpu) :: frames) cpu'
  | call {frames : List Frame} {cpu cpu' : Cpu} (h : Nested start frames cpu)
      (hexec : Executing .jsr cpu cpu')
      (hroom : (outstanding (.word (cpu.datapath.pc + 3) :: frames)).length ≤ 256) :
      Nested start (.word (cpu.datapath.pc + 3) :: frames) cpu'
  | pull {m : Mnemonic} {v : Byte} {frames : List Frame} {cpu cpu' : Cpu}
      (h : Nested start (.byte v :: frames) cpu) (hm : isPull m) (hexec : Executing m cpu cpu') :
      Nested start frames cpu'
  | ret {w : Word} {frames : List Frame} {cpu cpu' : Cpu}
      (h : Nested start (.word w :: frames) cpu) (hexec : Executing .rts cpu cpu') :
      Nested start frames cpu'
  | other {frames : List Frame} {cpu cpu' : Cpu} (h : Nested start frames cpu)
      (hrun : Run cpu cpu') (hsp : cpu'.datapath.sp = cpu.datapath.sp)
      (hpage : ∀ b, cpu'.datapath.memory.cell (stackAt b) = cpu.datapath.memory.cell (stackAt b)) :
      Nested start frames cpu'

/-- The outstanding bytes lie on the stack, and the stack pointer has moved by their number. -/
structure Stacked (start : Cpu) (frames : List Frame) (cpu : Cpu) : Prop where
  holds : cpu.datapath.arch.Holds (outstanding frames)
  sp : cpu.datapath.sp + BitVec.ofNat 8 (outstanding frames).length = start.datapath.sp

theorem Nested.stacked {start cpu : Cpu} {frames : List Frame} (h : Nested start frames cpu) :
    Stacked start frames cpu := by
  induction h with
  | start => exact ⟨Arch.holds_nil _, BitVec.add_zero _⟩
  | @push m frames cpu cpu' _ hm hexec hroom ih =>
      have hcount := length_outstanding_cons (.byte (pushed m cpu)) frames
      have hone : (Frame.byte (pushed m cpu)).bytes.length = 1 := rfl
      rcases (ends_push hm hexec.1 ih.holds (by omega)).of_executes hexec.2 with ⟨hsp, hholds⟩
      refine ⟨hholds, ?_⟩
      rw [hsp, hcount, hone, BitVec.ofNat_add, ← BitVec.add_assoc, ← ih.sp]
      congr 1
      exact BitVec.sub_add_cancel cpu.datapath.sp 1
  | @call frames cpu cpu' _ hexec hroom ih =>
      have hcount := length_outstanding_cons (.word (cpu.datapath.pc + 3)) frames
      have htwo : (Frame.word (cpu.datapath.pc + 3)).bytes.length = 2 := rfl
      rcases (ends_call hexec.1 ih.holds hroom).of_executes hexec.2 with ⟨hsp, hholds⟩
      refine ⟨hholds, ?_⟩
      rw [hsp, hcount, htwo, BitVec.ofNat_add, ← BitVec.add_assoc, ← ih.sp]
      congr 1
      exact BitVec.sub_add_cancel cpu.datapath.sp 2
  | @pull m v frames cpu cpu' _ hm hexec ih =>
      rcases (ends_pull hm hexec.1 ih.holds).of_executes hexec.2 with ⟨-, hsp, hholds⟩
      refine ⟨hholds, ?_⟩
      rw [hsp, ← ih.sp, length_outstanding_cons, BitVec.ofNat_add, ← BitVec.add_assoc]
      rfl
  | @ret w frames cpu cpu' _ hexec ih =>
      rcases (ends_ret hexec.1 ih.holds).of_executes hexec.2 with ⟨-, hsp, hholds⟩
      refine ⟨hholds, ?_⟩
      rw [hsp, ← ih.sp, length_outstanding_cons, BitVec.ofNat_add, ← BitVec.add_assoc]
      rfl
  | @other frames cpu cpu' _ _ hsp hpage ih =>
      refine ⟨ih.holds.congr hsp hpage, ?_⟩
      rw [hsp]
      exact ih.sp

/-- A push writes to the stack page alone. -/
theorem writes_push {cpu : Cpu} (hb : cpu.AtBoundary) {i : InstructionInfo}
    (hi : i ∈ Isa.instructions) (hnext : cpu.nextOpcode = i.opcode)
    (hm : isPush i.mnemonic ∨ i.mnemonic = .jsr) {b : Word}
    (hwrite : .write b ∈ accessLog (duration i cpu.datapath.status) cpu) :
    0x100 ≤ b.toNat ∧ b.toNat ≤ 0x1FF := by
  -- stack addresses are those of page one
  have hpage : ∀ v : Byte, 0x100 ≤ (stackAt v).toNat ∧ (stackAt v).toNat ≤ 0x1FF := by
    intro v
    have hv := v.isLt
    unfold stackAt
    rw [Word.toNat_ofBytes]
    show 0x100 ≤ 1 * 256 + v.toNat ∧ 1 * 256 + v.toNat ≤ 0x1FF
    omega
  -- a push writes at the stack pointer, JSR also one below it
  have haction : ∀ b, .write b ∈ Action.accesses (cpu.datapath.arch.operand i).address
      cpu.datapath.sp (actionOn i cpu.datapath.status) →
      b = stackAt cpu.datapath.sp ∨ b = stackAt (cpu.datapath.sp - 1) := by
    intro b hb
    unfold actionOn at hb
    rcases hm with (h | h) | h
    · rw [h] at hb
      cases List.mem_singleton.mp hb
      exact .inl rfl
    · rw [h] at hb
      cases List.mem_singleton.mp hb
      exact .inl rfl
    · rw [h] at hb
      rcases List.mem_cons.mp hb with heq | hb
      · cases heq
        exact .inl rfl
      · cases List.mem_singleton.mp hb
        exact .inr rfl
  rw [(executes hb hi hnext).1] at hwrite
  rcases List.mem_cons.mp hwrite with heq | hwrite
  · cases heq
  · rcases List.mem_append.mp hwrite with hread | hwrite
    · -- finding the operand only reads
      rcases List.mem_map.mp hread with ⟨a, -, heq⟩
      cases heq
    · rcases haction b hwrite with rfl | rfl
      · exact hpage _
      · exact hpage _

/-- In a well-nested run, with no more outstanding bytes than the page holds, each pull returns what
its push left, RTS returns behind its JSR, the stack pointer is back once nothing is outstanding,
and pushes write to the stack page alone. -/
theorem stack_lifo {start cpu : Cpu} {frames : List Frame} (h : Nested start frames cpu) :
    (frames = [] → cpu.datapath.sp = start.datapath.sp) ∧
    (∀ m v rest, frames = .byte v :: rest → isPull m → Before m cpu →
      Ends cpu fun t => pulled m t = v) ∧
    (∀ w rest, frames = .word w :: rest → Before .rts cpu → Ends cpu fun t => t.datapath.pc = w) ∧
    (∀ i ∈ Isa.instructions, isPush i.mnemonic ∨ i.mnemonic = .jsr → cpu.AtBoundary →
      cpu.nextOpcode = i.opcode → ∀ b, .write b ∈ accessLog (duration i cpu.datapath.status) cpu →
        0x100 ≤ b.toNat ∧ b.toNat ≤ 0x1FF) := by
  have hstacked := h.stacked
  refine ⟨?_, ?_, ?_, ?_⟩
  · rintro rfl
    rw [← hstacked.sp]
    exact (BitVec.add_zero _).symm
  · rintro m v rest rfl hm hbefore
    rcases ends_pull hm hbefore hstacked.holds with ⟨t, huniq, hv, -⟩
    exact ⟨t, huniq, hv⟩
  · rintro w rest rfl hbefore
    rcases ends_ret hbefore hstacked.holds with ⟨t, huniq, hpc, -⟩
    exact ⟨t, huniq, hpc⟩
  · intro i hi hm hb hnext b hwrite
    exact writes_push hb hi hnext hm hwrite

/-- PHA, LDA #$17, PHA, LDA #$00, PLA, PLA. -/
def nestedBytes : List Byte := [0xC0, 0x10, 0x17, 0xC0, 0x10, 0x00, 0xC1, 0xC1]

/-- The program with $2A in the accumulator, and with interrupts disabled. -/
def nestedDatapath : Datapath := { imageDatapath nestedBytes with a := 0x2A, status := 0x04 }

/-- Behind an inner pair of PHA and PLA, PLA still pulls what the outer PHA has pushed. -/
theorem stack_lifo_pha :
    ∃ start cpu : Cpu, Nested start [.byte 0x2A] cpu ∧ cpu.datapath.a = 0x17 ∧
      Ends cpu fun t => t.datapath.a = 0x2A := by
  obtain ⟨m, hm⟩ := exists_instructionMemory
  have hpha : phaImplied ∈ Isa.instructions := by decide
  have hlda : ldaImmediate ∈ Isa.instructions := by decide
  have hpla : plaImplied ∈ Isa.instructions := by decide
  have hstart := undisturbed_start (d := nestedDatapath) hm rfl rfl rfl
  have hop : nestedDatapath.arch.look nestedDatapath.arch.pc = 0xC0 := by decide
  have hsteps : ∃ s₁ s₂ s₃ s₄ s₅ : Arch, nestedDatapath.arch.execute phaImplied = .ok s₁ ∧
      s₁.execute ldaImmediate = .ok s₂ ∧ s₂.execute phaImplied = .ok s₃ ∧
      s₃.execute ldaImmediate = .ok s₄ ∧ s₄.execute plaImplied = .ok s₅ ∧
      s₁.status = 0x04 ∧ s₂.status = 0x04 ∧ s₃.status = 0x04 ∧ s₄.status = 0x06 ∧
      s₅.status = 0x04 ∧ s₁.look s₁.pc = 0x10 ∧ s₂.look s₂.pc = 0xC0 ∧ s₃.look s₃.pc = 0x10 ∧
      s₄.look s₄.pc = 0xC1 ∧ s₅.look s₅.pc = 0xC1 ∧ s₅.a = 0x17 := by
    refine ⟨_, _, _, _, _, rfl, rfl, rfl, rfl, rfl, rfl, rfl, rfl, rfl, rfl, ?_⟩
    decide
  obtain ⟨s₁, s₂, s₃, s₄, s₅, h₁, h₂, h₃, h₄, h₅, hp₁, hp₂, hp₃, hp₄, hp₅, hop₁, hop₂, hop₃, hop₄,
    hop₅, ha₅⟩ := hsteps
  obtain ⟨t₁, ht₁, rfl, hu₁⟩ := hstart.exists_executes hpha hop rfl h₁ (by rw [hp₁]; decide)
  obtain ⟨t₂, ht₂, rfl, hu₂⟩ := hu₁.exists_executes hlda hop₁ rfl h₂ (by rw [hp₂]; decide)
  obtain ⟨t₃, ht₃, rfl, hu₃⟩ := hu₂.exists_executes hpha hop₂ rfl h₃ (by rw [hp₃]; decide)
  obtain ⟨t₄, ht₄, rfl, hu₄⟩ := hu₃.exists_executes hlda hop₃ rfl h₄ (by rw [hp₄]; decide)
  obtain ⟨t₅, ht₅, rfl, hu₅⟩ := hu₄.exists_executes hpla hop₄ rfl h₅ (by rw [hp₅]; decide)
  have hbefore : ∀ {cpu : Cpu} {i : InstructionInfo}, cpu.Undisturbed → i ∈ Isa.instructions →
      cpu.datapath.arch.look cpu.datapath.arch.pc = i.opcode → Before i.mnemonic cpu :=
    fun hu hi hlook =>
      ⟨hu.boundary, _, hi, rfl, (nextOpcode_of_not_taken hu.notTaken).trans hlook⟩
  -- two frames are pushed and the inner one is pulled
  have houter := Nested.push .start (.inl rfl) ⟨hbefore hstart hpha hop, ht₁⟩
    (Nat.le_of_ble_eq_true rfl)
  have hinner := (houter.other ht₂.run (load_keeps h₂).1 fun b => (load_keeps h₂).2 _).push
    (.inl rfl) ⟨hbefore hu₂ hpha hop₂, ht₃⟩ (Nat.le_of_ble_eq_true rfl)
  have hpulled := (hinner.other ht₄.run (load_keeps h₄).1 fun b => (load_keeps h₄).2 _).pull
    (.inl rfl) ⟨hbefore hu₄ hpla hop₄, ht₅⟩
  exact ⟨_, t₅, hpulled, ha₅,
    (stack_lifo hpulled).2.1 .pla 0x2A [] rfl (.inl rfl) (hbefore hu₅ hpla hop₅)⟩

end Cpu

end Irata2.Sim
