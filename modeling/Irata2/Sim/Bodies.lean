import Irata2.Microcode.Bodies
import Irata2.Sim.Architecture

/-!
# The microcode refines the architecture

The steps of an addressing mode bring the address of the operand into the memory address register,
and the steps of an action do to the registers and the memory what the action says.  On the way they
make the accesses of the architecture and no others.
-/

namespace Irata2.Sim

open Hdl Hdl.Control Hdl.ByteRegister Hdl.WordRegister Isa Microcode.Irata

theorem low_add (w : Word) (v : Byte) : (w + v.setWidth 16).low = w.low + v := by
  have hw := congrArg BitVec.toNat (Word.ofBytes_high_low w)
  rw [Word.toNat_ofBytes] at hw
  have hsum := congrArg BitVec.toNat (Word.ofBytes_high_low (w + v.setWidth 16))
  rw [Word.toNat_ofBytes, BitVec.toNat_add, Alu.toNat_setWidth_byte] at hsum
  have hl := (w + v.setWidth 16).low.isLt
  have hv := v.isLt
  have hwl := w.low.isLt
  apply BitVec.eq_of_toNat_eq
  rw [BitVec.toNat_add]
  omega

namespace Bodies

open Datapath (Runs)

/-! ## Finding the operand -/

/-- The steps find an operand. -/
def Locates (steps : List (List Control)) (d : Datapath) (l : Located) : Prop :=
  ∃ d', Runs steps d (l.reads.map .read) (.ok d') ∧ d'.mar = l.address ∧ d'.arch = l.arch

theorem Locates.append {steps more : List (List Control)} {d : Datapath} {l l' : Located}
    (h : Locates steps d l)
    (h' : ∀ d', d'.mar = l.address → d'.arch = l.arch → Locates more d' l') :
    Locates (steps ++ more) d { l' with reads := l.reads ++ l'.reads } := by
  rcases h with ⟨d₁, hruns, hmar, harch⟩
  rcases h' d₁ hmar harch with ⟨d₂, hruns', hmar', harch'⟩
  refine ⟨d₂, ?_, hmar', harch'⟩
  rw [List.map_append]
  exact hruns.append hruns'

variable {d : Datapath} {address : Word} {s : Arch}

theorem locates_pcToMar (d : Datapath) : Locates [[pc.write, mar.read]] d ⟨d.pc, [], d.arch⟩ :=
  ⟨_, .step (Microstep.step_pcToMar d) (.nil _), rfl, rfl⟩

/-- The high byte of the address is still that of the program counter. -/
theorem locates_zeroPage (d : Datapath) :
    Locates zeroPageSteps d
      ⟨Word.ofBytes d.pc.high (d.arch.look d.pc), [d.pc], d.arch.next⟩ :=
  ⟨_, .step (Microstep.step_pcToMar d) (.step (Microstep.step_operandLow _) (.nil _)), rfl, rfl⟩

theorem locates_absolute (d : Datapath) : Locates absoluteSteps d d.arch.absolute := by
  refine ⟨_, .step (Microstep.step_pcToMar d) (.step (Microstep.step_operandLowSaved _)
    (.step (Microstep.step_pcToMar _) (.step (Microstep.step_operandHigh _)
      (.step (Microstep.step_restoreLow _) (.nil _))))), ?_, rfl⟩
  show Word.ofBytes (Word.ofBytes _ _).high _ = _
  rw [Word.high_ofBytes]
  rfl

theorem locates_resetHigh (hmar : d.mar = address) (harch : d.arch = s) :
    Locates [[marHigh.reset]] d ⟨zeroPage address.low, [], s⟩ := by
  subst hmar harch
  exact ⟨_, .step (Microstep.step_resetHigh d) (.nil _), rfl, rfl⟩

theorem locates_index (r : Isa.Register) (hmar : d.mar = address) (harch : d.arch = s) :
    Locates (indexSteps r) d ⟨address + (s.reg r).setWidth 16, [], s⟩ := by
  subst hmar harch
  refine ⟨_, .step (Microstep.step_offset d r) (.step (Microstep.step_addOffset _) (.nil _)), ?_,
    rfl⟩
  rw [← Datapath.addOffset_eq]
  cases r <;> rfl

theorem zeroPage_succ (p : Byte) : zeroPage (zeroPage p + 1).low = zeroPage (p + 1) := by
  have h := low_add (zeroPage p) 1
  unfold zeroPage at h ⊢
  rw [Word.low_ofBytes] at h
  exact congrArg (Word.ofBytes 0) h

/-- The second byte of a pointer is fetched from the zero page again. -/
theorem locates_pointer {p : Byte} (hmar : d.mar = zeroPage p) (harch : d.arch = s) :
    Locates pointerSteps d (s.pointer p) := by
  subst harch
  have hsucc := zeroPage_succ p
  rw [← hmar] at hsucc
  have hruns := Runs.step (Microstep.step_pointerLow d) (.step (Microstep.step_marIncrement _)
    (.step (Microstep.step_resetHigh _) (.step (Microstep.step_pointerHigh _)
      (.step (Microstep.step_restoreLow _) (.nil _)))))
  unfold Locates Arch.pointer
  rw [← hmar, ← hsucc]
  refine ⟨_, hruns, ?_, rfl⟩
  show Word.ofBytes (Word.ofBytes _ _).high _ = _
  rw [Word.high_ofBytes]
  rfl

theorem locates_zeroPageIndexed (d : Datapath) (r : Isa.Register) :
    Locates (zeroPageSteps ++ indexSteps r ++ [[marHigh.reset]]) d
      ⟨zeroPage (d.arch.look d.pc + d.arch.reg r), [d.pc], d.arch.next⟩ := by
  have h := ((locates_zeroPage d).append fun _ hmar harch => locates_index r hmar harch).append
    fun _ hmar harch => locates_resetHigh hmar harch
  rw [low_add, Word.low_ofBytes] at h
  cases r <;> exact h

theorem locates_zeroPageAddress (d : Datapath) :
    Locates (zeroPageSteps ++ [[marHigh.reset]]) d
      ⟨zeroPage (d.arch.look d.pc), [d.pc], d.arch.next⟩ := by
  have h := (locates_zeroPage d).append fun _ hmar harch => locates_resetHigh hmar harch
  rw [Word.low_ofBytes] at h
  exact h

/-- The steps of an addressing mode find the operand.  An operand right behind the opcode is
stepped over later. -/
theorem locates_address {mode : AddressingMode} (himp : mode ≠ .imp) (himm : mode ≠ .imm)
    (hrel : mode ≠ .rel) (d : Datapath) :
    Locates (addressSteps mode) d (d.arch.locate mode) := by
  cases mode with
  | imp => exact absurd rfl himp
  | imm => exact absurd rfl himm
  | rel => exact absurd rfl hrel
  | zp => exact locates_zeroPageAddress d
  | zpx => exact locates_zeroPageIndexed d .x
  | zpy => exact locates_zeroPageIndexed d .y
  | abs => exact locates_absolute d
  | ind => exact locates_absolute d
  | abx => exact (locates_absolute d).append fun _ hmar harch => locates_index .x hmar harch
  | aby => exact (locates_absolute d).append fun _ hmar harch => locates_index .y hmar harch
  | izx =>
      exact (locates_zeroPageIndexed d .x).append fun _ hmar harch => locates_pointer hmar harch
  | izy =>
      exact ((locates_zeroPageAddress d).append fun _ hmar harch =>
        locates_pointer hmar harch).append fun _ hmar harch => locates_index .y hmar harch

/-! ## Actions -/

/-- The steps make the accesses of the log, and programs see the result. -/
def Performs (steps : List (List Control)) (d : Datapath) (log : List Access)
    (result : Except SimError Arch) : Prop :=
  ∃ r, Runs steps d log r ∧ r.map Datapath.arch = result

theorem Performs.of_runs {steps : List (List Control)} {d d' : Datapath} {log : List Access}
    {s : Arch} (h : Runs steps d log (.ok d')) (hs : d'.arch = s) : Performs steps d log (.ok s) :=
  ⟨_, h, congrArg Except.ok hs⟩

theorem map_arch {x : Except SimError Memory} {f : Memory → Datapath} {g : Memory → Arch}
    (h : ∀ m, (f m).arch = g m) : (x.map f).map Datapath.arch = x.map g := by
  cases x with
  | ok m => exact congrArg Except.ok (h m)
  | error e => rfl

/-! ### The stack -/

theorem runs_stackAddress (d : Datapath) :
    Runs [stackAddress] d [] (.ok { d with mar := stackAt d.sp }) :=
  .step (Microstep.step_stackAddress d) (.nil _)

theorem runs_pushByte {r : ByteRegister} (hr : r ∈ [a, status, pcHigh, pcLow])
    {d : Datapath} (hram : d.memory.isRam d.mar = true) :
    Runs [[r.write, memoryRead, spDecrement]] d [.write d.mar]
      (.ok { d with memory := d.memory.store d.mar (d.byte r), sp := d.sp - 1 }) := by
  have hstep := Microstep.step_push d hr
  rw [Memory.writeAt_store hram] at hstep
  exact .step hstep (.nil _)

theorem runs_push {r : ByteRegister} (hr : r ∈ [a, status, pcHigh, pcLow]) {d : Datapath}
    (h : d.memory.LowRam) :
    Runs (pushSteps r) d [.write (stackAt d.sp)]
      (.ok { d with
        mar := stackAt d.sp
        memory := d.memory.store (stackAt d.sp) (d.byte r)
        sp := d.sp - 1 }) := by
  have hpush := @runs_pushByte r hr { d with mar := stackAt d.sp } (h.stackAt d.sp)
  have hbyte : ({ d with mar := stackAt d.sp } : Datapath).byte r = d.byte r := by
    simp only [List.mem_cons, List.not_mem_nil, or_false] at hr
    rcases hr with rfl | rfl | rfl | rfl <;> rfl
  rw [hbyte] at hpush
  exact (runs_stackAddress d).append hpush

theorem runs_pullStatus (d : Datapath) :
    Runs (pullSteps status) d [.read (stackAt (d.sp + 1))]
      (.ok { d with
        sp := d.sp + 1
        mar := stackAt (d.sp + 1)
        status := d.arch.top
        memory := d.memory.afterRead (stackAt (d.sp + 1)) }) :=
  .step (Microstep.step_spIncrement d) (.step (Microstep.step_stackAddress _)
    (.step (Microstep.step_pullStatus _) (.nil _)))

theorem add_one_add_one (v : Byte) : v + 1 + 1 = v + 2 :=
  BitVec.add_assoc v 1 1

theorem add_two_add_one (v : Byte) : v + 2 + 1 = v + 3 :=
  BitVec.add_assoc v 2 1

theorem sub_one_sub_one (v : Byte) : v - 1 - 1 = v - 2 :=
  BitVec.sub_sub v 1 1

theorem runs_pullPc (d : Datapath) :
    ∃ d', Runs (pullSteps pcLow ++ pullSteps pcHigh) d
      [.read (stackAt (d.sp + 1)), .read (stackAt (d.sp + 1 + 1))] (.ok d') ∧
        d'.arch = d.arch.pullPc := by
  have hruns := Runs.step (Microstep.step_spIncrement d) (.step (Microstep.step_stackAddress _)
    (.step (Microstep.step_pullPcLow _) (.step (Microstep.step_spIncrement _)
      (.step (Microstep.step_stackAddress _) (.step (Microstep.step_pullPcHigh _) (.nil _))))))
  have hpc := congrArg (Word.ofBytes d.arch.pull.top) (Word.low_ofBytes d.pc.high d.arch.top)
  exact ⟨_, hruns, congrArg (fun w => { d.arch.pull.pull with pc := w }) hpc⟩

theorem runs_loadPc (d : Datapath) :
    ∃ d', Runs loadPcSteps d [.read d.mar, .read (d.mar + 1)] (.ok d') ∧
      d'.arch = d.arch.loadPc d.mar := by
  have hruns := Runs.step (Microstep.step_pullPcLow d) (.step (Microstep.step_marIncrement _)
    (.step (Microstep.step_pullPcHigh _) (.nil _)))
  have hpc := congrArg (Word.ofBytes ((d.arch.read d.mar).look (d.mar + 1)))
    (Word.low_ofBytes d.pc.high (d.arch.look d.mar))
  exact ⟨_, hruns,
    congrArg (fun w => { (d.arch.read d.mar).read (d.mar + 1) with pc := w }) hpc⟩

/-! ### Operands in memory -/

/-- The state in which the action of an immediate operand, or of one in memory, begins. -/
def begin (immediate : Bool) (d : Datapath) : Arch :=
  { d.arch with pc := if immediate then d.pc + 1 else d.pc }

theorem begin_false (d : Datapath) : begin false d = d.arch := rfl

/-- The steps of an action over an immediate operand, or over one in memory. -/
def operandSteps (immediate : Bool) (action : Isa.Action) : List (List Control) :=
  if immediate then withIncrement (actionSteps action) else actionSteps action

theorem operandSteps_false (action : Isa.Action) : operandSteps false action = actionSteps action :=
  rfl

/-- A step of the arithmetic unit makes no access. -/
theorem runs_alu {code : Nat} {steps : List (List Control)} {d d' : Datapath} {log : List Access}
    {r : Except SimError Datapath} (h : d.step (Datapath.on (opcodeBits code)) = .ok d')
    (hrest : Runs steps d' log r) : Runs (opcodeBits code :: steps) d log r := by
  have hnot : ∀ c, (∀ i, c ≠ .aluOpcodeBit i) → c ∉ opcodeBits code := by
    intro c hne hmem
    rcases List.mem_map.mp hmem with ⟨i, -, rfl⟩
    exact hne i rfl
  have hnone : Datapath.accessesAt (opcodeBits code) d.mar = [] := by
    unfold Datapath.accessesAt
    rw [if_neg (hnot _ (by simp)), if_neg (hnot _ (by simp))]
    rfl
  have hruns := Runs.step h hrest
  rw [hnone] at hruns
  exact hruns

theorem performs_load (immediate : Bool) (r : Isa.Register) (d : Datapath) :
    Performs (operandSteps immediate (.load r)) d [.read d.mar]
      ((begin immediate d).exec d.mar (.load r)) := by
  cases immediate with
  | false =>
      have hruns := Runs.step (Microstep.step_load d r false) (.nil _)
      cases r <;> exact .of_runs hruns rfl
  | true =>
      have hruns := Runs.step (Microstep.step_load d r true) (.nil _)
      cases r <;> exact .of_runs hruns rfl

theorem performs_accumulate (immediate : Bool) (f : Binary) (d : Datapath) :
    Performs (operandSteps immediate (.accumulate f)) d [.read d.mar]
      ((begin immediate d).exec d.mar (.accumulate f)) := by
  have hresult := Alu.result_binary f d.a (d.arch.look d.mar) d.aluResult d.status
  have hstatus := Alu.status_congr f.code d.a (d.arch.look d.mar) d.aluResult 0 d.status
  have hruns := Runs.step (Microstep.step_rhsMemory d immediate) (.step (Microstep.step_lhs _ .a)
    (runs_alu (Microstep.step_binary _ f) (.step (Microstep.step_result _ .a) (.nil _))))
  have harch := congrArg₂ (fun v status => ({ (begin immediate d).read d.mar with
    status := status }.setReg .a v).setFlags v) hresult hstatus
  cases immediate <;> exact .of_runs hruns harch

theorem performs_compare (immediate : Bool) (r : Isa.Register) (d : Datapath) :
    Performs (operandSteps immediate (.compare r)) d [.read d.mar]
      ((begin immediate d).exec d.mar (.compare r)) := by
  -- the carry is set, so there is no borrow
  have hcarry : Status.value .carry (Status.assign .carry true d.status) = true :=
    (Status.value_assign .carry .carry true d.status).trans (if_pos rfl)
  have hresult := Alu.result_binary .subtract (d.arch.reg r) (d.arch.look d.mar) d.aluResult
    (Status.assign .carry true d.status)
  rw [hcarry] at hresult
  have hdifference := hresult.trans (BitVec.sub_zero (d.arch.reg r - d.arch.look d.mar))
  have hstatus := Alu.status_congr 0x2 (d.arch.reg r) (d.arch.look d.mar) d.aluResult 0
    (Status.assign .carry true d.status)
  have hruns := Runs.step (Microstep.step_rhsMemory d immediate) (.step (Microstep.step_lhs _ r)
    (.step (Microstep.step_set _ .carry) (runs_alu (Microstep.step_binary _ .subtract)
      (.step (Microstep.step_resultFlags _) (.nil _)))))
  have harch := congrArg₂ (fun v status => { (begin immediate d).read d.mar with
    status := status }.setFlags v) hdifference hstatus
  cases immediate <;> cases r <;> exact .of_runs hruns harch

/-! ### The other actions -/

theorem performs_bit (d : Datapath) :
    Performs (actionSteps .bit) d [.read d.mar] (d.arch.exec d.mar .bit) := by
  have hresult := Alu.result_binary .and d.a (d.arch.look d.mar) d.aluResult d.status
  have hruns := Runs.step (Microstep.step_rhsMemory d false) (.step (Microstep.step_lhs _ .a)
    (runs_alu (Microstep.step_test _) (.step (Microstep.step_resultFlags _) (.nil _))))
  exact .of_runs hruns (congrArg (d.arch.read d.mar).setFlags hresult)

theorem performs_modify (r : Isa.Register) (f : Unary) (d : Datapath) :
    Performs (actionSteps (.modify r f)) d [] (d.arch.exec d.mar (.modify r f)) := by
  have hresult := Alu.result_unary f (d.arch.reg r) d.aluRhs d.aluResult d.status
  have hstatus := (Alu.status_congr f.code (d.arch.reg r) d.aluRhs d.aluResult 0 d.status).trans
    (Alu.status_unary f (d.arch.reg r) d.aluRhs 0 0 d.status)
  have hruns := Runs.step (Microstep.step_lhs d r) (runs_alu (Microstep.step_unary _ f)
    (.step (Microstep.step_result _ r) (.nil _)))
  have harch := congrArg₂ (fun v status => ({ d.arch with status := status }.setReg r v).setFlags v)
    hresult hstatus
  cases r <;> exact .of_runs hruns harch

/-- The store of the result comes after the read of the operand. -/
theorem performs_modifyMemory (f : Unary) (d : Datapath) :
    Performs (actionSteps (.modifyMemory f)) d [.read d.mar, .write d.mar]
      (d.arch.exec d.mar (.modifyMemory f)) := by
  have hresult := Alu.result_unary f (d.arch.look d.mar) d.aluRhs d.aluResult d.status
  have hstatus := (Alu.status_congr f.code (d.arch.look d.mar) d.aluRhs d.aluResult 0
    d.status).trans (Alu.status_unary f (d.arch.look d.mar) d.aluRhs 0 0 d.status)
  have hruns := Runs.step (Microstep.step_lhsMemory d) (runs_alu (Microstep.step_unary _ f)
    (Runs.last [aluResult.write, memoryRead, statusAnalyzer.read] _))
  rw [Microstep.step_resultStore] at hruns
  have harch := congrArg₂ (fun v status => ((d.memory.afterRead d.mar).writeAt d.mar v).map
    fun memory => ({ d.arch with status := status, memory := memory } : Arch).setFlags v)
    hresult hstatus
  exact ⟨_, hruns, (map_arch fun m => rfl).trans harch⟩

theorem performs_store (r : Isa.Register) (d : Datapath) :
    Performs (actionSteps (.store r)) d [.write d.mar] (d.arch.exec d.mar (.store r)) := by
  have hruns := Runs.last [r.port.write, memoryRead] d
  rw [Microstep.step_store] at hruns
  cases r <;> exact ⟨_, hruns, map_arch fun m => rfl⟩

theorem performs_transfer {source target : Isa.Register}
    (h : (source, target) ∈ [(.a, .x), (.x, .a), (.a, .y), (.y, .a)]) (d : Datapath) :
    Performs (actionSteps (.transfer source target)) d []
      (d.arch.exec d.mar (.transfer source target)) := by
  simp only [List.mem_cons, List.not_mem_nil, or_false, Prod.mk.injEq] at h
  rcases h with ⟨rfl, rfl⟩ | ⟨rfl, rfl⟩ | ⟨rfl, rfl⟩ | ⟨rfl, rfl⟩ <;>
    exact .of_runs (Runs.step (Microstep.step_transfer d (by decide)) (.nil _)) rfl

theorem performs_pullAccumulator (d : Datapath) :
    Performs (actionSteps .pullAccumulator) d [.read (stackAt (d.sp + 1))]
      (d.arch.exec d.mar .pullAccumulator) := by
  have hruns := Runs.step (Microstep.step_spIncrement d) (.step (Microstep.step_stackAddress _)
    (.step (Microstep.step_load _ .a false) (.nil _)))
  exact .of_runs hruns rfl

theorem performs_call (d : Datapath) (h : d.memory.LowRam) :
    Performs (actionSteps .call) d [.write (stackAt d.sp), .write (stackAt (d.sp - 1))]
      (d.arch.exec d.mar .call) := by
  have htarget : Runs [[mar.write, tmp.read]] d [] (.ok { d with tmp := d.mar }) :=
    .step (Microstep.step_saveTarget d) (.nil _)
  have hruns := ((htarget.append (runs_push (r := pcHigh) (by decide) h)).append
    (runs_push (r := pcLow) (by decide) (Memory.lowRam_store h _ _))).append
      (.step (Microstep.step_jumpSaved _) (.nil _))
  exact .of_runs hruns rfl

theorem performs_rti (d : Datapath) :
    Performs (actionSteps .rti) d
      [.read (stackAt (d.sp + 1)), .read (stackAt (d.sp + 1 + 1)),
        .read (stackAt (d.sp + 1 + 1 + 1))] (d.arch.exec d.mar .rti) := by
  have hstatus := runs_pullStatus d
  rcases runs_pullPc { d with
    sp := d.sp + 1
    mar := stackAt (d.sp + 1)
    status := d.arch.top
    memory := d.memory.afterRead (stackAt (d.sp + 1)) } with ⟨d', hpc, harch⟩
  have hruns := hstatus.append hpc
  rw [← List.append_assoc] at hruns
  exact .of_runs hruns harch

/-- The steps that push the program counter with interrupts disabled. -/
theorem runs_interruptFrame (d : Datapath) (h : d.memory.LowRam) :
    ∃ d', Runs ([[StatusBit.interruptDisable.set]] ++ pushSteps pcHigh ++ pushSteps pcLow) d
      [.write (stackAt d.sp), .write (stackAt (d.sp - 1))] (.ok d') ∧
        d'.arch = (d.arch.assign .interruptDisable true).pushWord d.pc ∧ d'.memory.LowRam := by
  have hset : Runs [[StatusBit.interruptDisable.set]] d []
      (.ok (d.assignStatus .interruptDisable true)) :=
    .step (Microstep.step_set d .interruptDisable) (.nil _)
  have hhigh := Memory.lowRam_store h (stackAt d.sp) d.pc.high
  exact ⟨_, (hset.append (runs_push (r := pcHigh) (by decide) h)).append
    (runs_push (r := pcLow) (by decide) hhigh), rfl, Memory.lowRam_store hhigh _ _⟩

theorem runs_vector (d : Datapath) :
    ∃ d', Runs ([[marInterruptVector]] ++ loadPcSteps) d [.read 0xFFFE, .read 0xFFFF] (.ok d') ∧
      d'.arch = d.arch.loadPc 0xFFFE := by
  rcases runs_loadPc { d with mar := 0xFFFE } with ⟨d', hload, harch⟩
  have hvector : Runs [[marInterruptVector]] d [] (.ok { d with mar := 0xFFFE }) :=
    .step (Microstep.step_interruptVector d) (.nil _)
  exact ⟨d', hvector.append hload, harch⟩

/-- The status byte is pushed with the given break bit, which is clear afterwards. -/
def pushedStatus (s : Arch) (b : Bool) : Arch :=
  ((s.assign .brk b).push (s.assign .brk b).status).assign .brk false

theorem runs_statusBrk (d : Datapath) (h : d.memory.LowRam) :
    ∃ d', Runs [stackAddress, [StatusBit.brk.set], [status.write, memoryRead, spDecrement],
        [StatusBit.brk.clear]] d [.write (stackAt d.sp)] (.ok d') ∧
      d'.arch = pushedStatus d.arch true := by
  have hpush := @runs_pushByte status (by decide)
    ({ d with mar := stackAt d.sp }.assignStatus .brk true) (h.stackAt d.sp)
  have hruns := Runs.step (Microstep.step_stackAddress d) (.step (Microstep.step_set _ .brk)
    (hpush.append (.step (Microstep.step_clear _ .brk) (.nil _))))
  exact ⟨_, hruns, rfl⟩

theorem assign_assign (f : StatusBit) (v : Bool) (status : Byte) :
    Status.assign f v (Status.assign f v status) = Status.assign f v status := by
  apply Status.ext_value
  intro g
  rw [Status.value_assign, Status.value_assign]
  split <;> rfl

theorem runs_statusIrq (d : Datapath) (h : d.memory.LowRam) :
    ∃ d', Runs [stackAddress, [StatusBit.brk.clear], [status.write, memoryRead, spDecrement]] d
        [.write (stackAt d.sp)] (.ok d') ∧ d'.arch = pushedStatus d.arch false := by
  have hpush := @runs_pushByte status (by decide)
    ({ d with mar := stackAt d.sp }.assignStatus .brk false) (h.stackAt d.sp)
  have hruns := Runs.step (Microstep.step_stackAddress d) (.step (Microstep.step_clear _ .brk) hpush)
  have hstatus := (assign_assign .brk false d.status).symm
  exact ⟨_, hruns, congrArg (fun status =>
    { (d.arch.assign .brk false).push (d.arch.assign .brk false).status with status := status })
    hstatus⟩

/-- An interrupt handler is entered by steps that push the status byte with a given break bit. -/
theorem performs_interrupt {statusSteps : List (List Control)} {b : Bool}
    (hstatus : ∀ d : Datapath, d.memory.LowRam → ∃ d',
      Runs statusSteps d [.write (stackAt d.sp)] (.ok d') ∧ d'.arch = pushedStatus d.arch b)
    (d : Datapath) (h : d.memory.LowRam) :
    Performs ([[StatusBit.interruptDisable.set]] ++ pushSteps pcHigh ++ pushSteps pcLow ++
        statusSteps ++ ([[marInterruptVector]] ++ loadPcSteps)) d
      [.write (stackAt d.sp), .write (stackAt (d.sp - 1)), .write (stackAt (d.sp - 1 - 1)),
        .read 0xFFFE, .read 0xFFFF]
      (.ok ((pushedStatus ((d.arch.assign .interruptDisable true).pushWord d.pc) b).loadPc
        0xFFFE)) := by
  rcases runs_interruptFrame d h with ⟨d₁, hframe, harch, hram⟩
  rcases hstatus d₁ hram with ⟨d₂, hpush, harch'⟩
  rcases runs_vector d₂ with ⟨d₃, hvector, harch''⟩
  have hsp : d₁.sp = d.sp - 1 - 1 := congrArg Arch.sp harch
  -- the status byte goes below the two bytes of the program counter
  rw [hsp] at hpush
  refine .of_runs ((hframe.append hpush).append hvector) ?_
  rw [harch'', harch', harch]

theorem performs_brk (d : Datapath) (h : d.memory.LowRam) :
    Performs (actionSteps .brk) d
      [.write (stackAt d.sp), .write (stackAt (d.sp - 1)), .write (stackAt (d.sp - 1 - 1)),
        .read 0xFFFE, .read 0xFFFF] (d.arch.exec d.mar .brk) :=
  performs_interrupt runs_statusBrk d h

theorem performs_irq (d : Datapath) (h : d.memory.LowRam) :
    Performs (actionSteps .irq) d
      [.write (stackAt d.sp), .write (stackAt (d.sp - 1)), .write (stackAt (d.sp - 1 - 1)),
        .read 0xFFFE, .read 0xFFFF] (d.arch.exec d.mar .irq) :=
  performs_interrupt runs_statusIrq d h

/-! ## Bodies -/

/-- The actions of instructions without an operand. -/
def isImplied : Isa.Action → Bool
  | .nop | .halt | .crash | .modify _ _ | .stackToX | .xToStack | .pushAccumulator | .pushStatus
  | .pullAccumulator | .pullStatus | .assign _ _ | .ret | .brk | .irq | .rti => true
  | .transfer source target => (source, target) ∈ [(.a, .x), (.x, .a), (.a, .y), (.y, .a)]
  | _ => false

/-- The actions on an operand at an address. -/
def isAddressed : Isa.Action → Bool
  | .load _ | .store _ | .accumulate _ | .compare _ | .bit | .modifyMemory _ | .jump
  | .jumpIndirect | .call => true
  | _ => false

/-- The actions that occur with an addressing mode. -/
def fits : AddressingMode → Isa.Action → Bool
  | .imm, .load _ | .imm, .accumulate _ | .imm, .compare _ => true
  | .imm, _ => false
  | .rel, action => action = .branch || action = .skip
  | .imp, action => isImplied action
  | .abs, .pass => true
  | _, action => isAddressed action

theorem fits_actionOn {i : InstructionInfo} (hi : i ∈ Isa.instructions) (status : Byte) :
    fits i.addressingMode (actionOn i status) = true := by
  have htaken : ∀ i ∈ Isa.instructions,
      fits i.addressingMode (i.mnemonic.action i.addressingMode) = true := by
    decide +kernel
  have hother : ∀ i ∈ Isa.instructions, i.mnemonic.condition ≠ none →
      fits i.addressingMode i.mnemonic.otherwise = true := by
    decide +kernel
  unfold actionOn
  cases hc : i.mnemonic.condition with
  | none => exact htaken i hi
  | some c =>
      show fits _ (if _ then _ else _) = true
      split
      · exact htaken i hi
      · exact hother i hi (by rw [hc]; exact Option.some_ne_none c)

theorem performs_implied {action : Isa.Action} (h : isImplied action = true) (d : Datapath)
    (hram : d.memory.LowRam) (address : Word) :
    Performs (actionSteps action) d (Action.accesses address d.sp action)
      (d.arch.exec address action) := by
  cases action with
  | nop => exact .of_runs (.step (Microstep.step_nil d) (.nil _)) rfl
  | halt => exact .of_runs (.step (Microstep.step_halt d) (.nil _)) rfl
  | crash => exact .of_runs (.step (Microstep.step_crash d) (.nil _)) rfl
  | modify r f => exact performs_modify r f d
  | transfer source target => exact performs_transfer (of_decide_eq_true h) d
  | stackToX => exact .of_runs (.step (Microstep.step_transfer d (by decide)) (.nil _)) rfl
  | xToStack => exact .of_runs (.step (Microstep.step_xToSp d) (.nil _)) rfl
  | pushAccumulator => exact .of_runs (runs_push (r := a) (by decide) hram) rfl
  | pushStatus => exact .of_runs (runs_push (r := status) (by decide) hram) rfl
  | pullAccumulator => exact performs_pullAccumulator d
  | pullStatus => exact .of_runs (runs_pullStatus d) rfl
  | assign f v =>
      cases v with
      | true => exact .of_runs (.step (Microstep.step_set d f) (.nil _)) rfl
      | false => exact .of_runs (.step (Microstep.step_clear d f) (.nil _)) rfl
  | ret =>
      rcases runs_pullPc d with ⟨d', hruns, harch⟩
      rw [add_one_add_one] at hruns
      exact .of_runs hruns harch
  | brk =>
      have hbrk := performs_brk d hram
      rw [sub_one_sub_one] at hbrk
      exact hbrk
  | irq =>
      have hirq := performs_irq d hram
      rw [sub_one_sub_one] at hirq
      exact hirq
  | rti =>
      have hrti := performs_rti d
      rw [add_one_add_one, add_two_add_one] at hrti
      exact hrti
  | _ => cases h

theorem performs_addressed {action : Isa.Action} (h : isAddressed action = true) (d : Datapath)
    (hram : d.memory.LowRam) :
    Performs (actionSteps action) d (Action.accesses d.mar d.sp action)
      (d.arch.exec d.mar action) := by
  cases action with
  | load r =>
      have hload := performs_load false r d
      rw [begin_false, operandSteps_false] at hload
      exact hload
  | store r => exact performs_store r d
  | accumulate f =>
      have haccumulate := performs_accumulate false f d
      rw [begin_false, operandSteps_false] at haccumulate
      exact haccumulate
  | compare r =>
      have hcompare := performs_compare false r d
      rw [begin_false, operandSteps_false] at hcompare
      exact hcompare
  | bit => exact performs_bit d
  | modifyMemory f => exact performs_modifyMemory f d
  | jump => exact .of_runs (.step (Microstep.step_jump d) (.nil _)) rfl
  | jumpIndirect =>
      rcases runs_loadPc d with ⟨d', hruns, harch⟩
      exact .of_runs hruns harch
  | call => exact performs_call d hram
  | _ => cases h

theorem Locates.performs {steps more : List (List Control)} {d : Datapath} {l : Located}
    {log : List Access} {result : Except SimError Arch} (h : Locates steps d l)
    (h' : ∀ d', d'.mar = l.address → d'.arch = l.arch → Performs more d' log result) :
    Performs (steps ++ more) d (l.reads.map .read ++ log) result := by
  rcases h with ⟨d', hruns, hmar, harch⟩
  rcases h' d' hmar harch with ⟨r, hruns', hresult⟩
  exact ⟨r, hruns.append hruns', hresult⟩

/-- An immediate operand is stepped over when it is read. -/
theorem performs_immediate {action : Isa.Action} (h : fits .imm action = true) (d : Datapath) :
    Performs (body .imm action) d (Action.accesses d.pc d.sp action)
      ({ d.arch with pc := d.pc + 1 }.exec d.pc action) := by
  have hbegin : ∀ d' : Datapath, d'.arch = d.arch →
      begin true d' = { d.arch with pc := d.pc + 1 } := by
    intro d' harch
    have hpc : d'.pc = d.pc := congrArg Arch.pc harch
    show { d'.arch with pc := d'.pc + 1 } = _
    rw [harch, hpc]
  have hoperand : ∀ d' : Datapath, d'.mar = d.pc → d'.arch = d.arch →
      Performs (operandSteps true action) d' [.read d.pc]
        ({ d.arch with pc := d.pc + 1 }.exec d.pc action) := by
    intro d' hmar harch
    rw [← hbegin d' harch, ← hmar]
    cases action with
    | load r => exact performs_load true r d'
    | accumulate f => exact performs_accumulate true f d'
    | compare r => exact performs_compare true r d'
    | _ => cases h
  have hbody := (locates_pcToMar d).performs hoperand
  cases action with
  | load r => exact hbody
  | accumulate f => exact hbody
  | compare r => exact hbody
  | _ => cases h

/-- The offset of a branch is stepped over when it is read. -/
theorem performs_relative {action : Isa.Action} (h : fits .rel action = true) (d : Datapath) :
    Performs (body .rel action) d (Action.accesses d.pc d.sp action)
      ({ d.arch with pc := d.pc + 1 }.exec d.pc action) := by
  have haction : action = .branch ∨ action = .skip := by
    rw [fits, Bool.or_eq_true, decide_eq_true_eq, decide_eq_true_eq] at h
    exact h
  rcases haction with rfl | rfl
  · exact .of_runs (.step (Microstep.step_pcToMar d) (.step (Microstep.step_branch _) (.nil _))) rfl
  · exact .of_runs (.step (Microstep.step_pcToMar d) (.step (Microstep.step_skip _) (.nil _))) rfl

/-- An address that is not used is still read. -/
theorem performs_pass (d : Datapath) :
    Performs (body .abs .pass) d [.read d.pc, .read (d.pc + 1)]
      (.ok (d.arch.locate .abs).arch) :=
  .of_runs (.step (Microstep.step_pcToMar d) (.step (Microstep.step_operandLow _)
    (.step (Microstep.step_pcToMar _) (.step (Microstep.step_operandHigh _) (.nil _))))) rfl

theorem locate_sp (s : Arch) (mode : AddressingMode) : (s.locate mode).arch.sp = s.sp := by
  cases mode <;> rfl

theorem locate_lowRam {s : Arch} (h : s.memory.LowRam) (mode : AddressingMode) :
    (s.locate mode).arch.memory.LowRam := by
  have hread : ∀ (t : Arch) address, t.memory.LowRam → (t.read address).memory.LowRam :=
    fun t address ht => Memory.lowRam_afterRead ht address
  have hnext : ∀ t : Arch, t.memory.LowRam → t.next.memory.LowRam := fun t ht => hread t t.pc ht
  have hpointer : ∀ p, (s.next.pointer p).arch.memory.LowRam := fun p =>
    hread (s.next.read (zeroPage p)) _ (hread s.next _ (hnext s h))
  cases mode with
  | imp | imm | rel => exact h
  | zp | zpx | zpy => exact hnext s h
  | abs | ind | abx | aby => exact hnext s.next (hnext s h)
  | izx => exact hpointer (s.look s.pc + s.x)
  | izy => exact hpointer (s.look s.pc)

/-- The body of an instruction refines the architecture: it finds the operand and does what the
action says, with the accesses of both. -/
theorem performs_body {mode : AddressingMode} {action : Isa.Action} (h : fits mode action = true)
    (d : Datapath) (hram : d.memory.LowRam) :
    Performs (body mode action) d
      ((d.arch.locate mode).reads.map .read ++
        Action.accesses (d.arch.locate mode).address d.sp action)
      ((d.arch.locate mode).arch.exec (d.arch.locate mode).address action) := by
  have hplain : mode ≠ .imm → action ≠ .pass →
      body mode action = addressSteps mode ++ actionSteps action := by
    intro himm hpass
    unfold body
    rw [if_neg hpass, if_neg himm]
  -- the address is found first, and the action works at it
  have haddressed : mode ≠ .imp → mode ≠ .imm → mode ≠ .rel → isAddressed action = true →
      Performs (body mode action) d
        ((d.arch.locate mode).reads.map .read ++
          Action.accesses (d.arch.locate mode).address d.sp action)
        ((d.arch.locate mode).arch.exec (d.arch.locate mode).address action) := by
    intro himp himm hrel haction
    have hpass : action ≠ .pass := by
      rintro rfl
      cases haction
    rw [hplain himm hpass]
    refine (locates_address himp himm hrel d).performs fun d' hmar harch => ?_
    have hmemory : d'.memory.LowRam := by
      have hlocate : d'.arch.memory.LowRam := harch ▸ locate_lowRam hram mode
      exact hlocate
    have hsp : d'.sp = d.sp := (congrArg Arch.sp harch).trans (locate_sp d.arch mode)
    have hperforms := performs_addressed haction d' hmemory
    rw [hmar, harch, hsp] at hperforms
    exact hperforms
  cases mode with
  | imp =>
      have hpass : action ≠ .pass := by
        rintro rfl
        cases h
      rw [hplain AddressingMode.noConfusion hpass]
      exact performs_implied h d hram 0
  | imm => exact performs_immediate h d
  | rel => exact performs_relative h d
  | abs =>
      by_cases hpass : action = .pass
      · subst hpass
        exact performs_pass d
      · refine haddressed (by decide) (by decide) (by decide) ?_
        cases action <;> first | exact h | exact absurd rfl hpass
  | _ => exact haddressed (by decide) (by decide) (by decide) h

end Bodies

end Irata2.Sim
