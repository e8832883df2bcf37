import Irata2.Library.Footprint
import Irata2.Sim.Cycle

/-!
# The cells of the datapath

For the order in which a phase visits the components it matters which registers a component reads
and which it changes.  The registers are split into cells: the low and high ports of the program
counter and of the memory address register are cells of their own, and so are the bits of the
status register, because components change them one by one.
-/

namespace Irata2.Sim

open Hdl Library

/-- A part of the state that a component can read or change alone. -/
inductive Cell
  | byte (r : ByteRegister)
  | tmp
  | bit (f : StatusBit)
  | memory
  | data
  | address
  | injectInterrupt
  | sc
  | ipc
  | microcode
  deriving DecidableEq, Repr

/-- The registers, the buses and the controller within a tick. -/
structure Stage where
  datapath : Datapath
  buses : Buses
  controller : Controller

namespace Cell

def Val : Cell → Type
  | byte _ | sc => Byte
  | tmp | ipc => Word
  | bit _ | injectInterrupt => Bool
  | memory => Memory
  | data => Option Byte
  | address => Option Word
  | microcode => InstructionMemory

/-- The value of a cell.  The status register is seen through its bits only. -/
def get : (k : Cell) → Stage → k.Val
  | byte r, s => if r = .status then (0 : Byte) else s.datapath.byte r
  | tmp, s => s.datapath.tmp
  | bit f, s => Status.value f s.datapath.status
  | memory, s => s.datapath.memory
  | data, s => s.buses.data
  | address, s => s.buses.address
  | injectInterrupt, s => s.controller.injectInterrupt
  | sc, s => s.controller.sc
  | ipc, s => s.controller.ipc
  | microcode, s => s.controller.instructionMemory

def statusBits : List Cell :=
  [bit .negative, bit .overflow, bit .unused, bit .brk, bit .decimal, bit .interruptDisable,
    bit .zero, bit .carry]

def ofByte : ByteRegister → List Cell
  | .status => statusBits
  | r => [byte r]

def ofWord : WordRegister → List Cell
  | .tmp => [tmp]
  | .pc => [byte .pcLow, byte .pcHigh]
  | .mar => [byte .marLow, byte .marHigh]

theorem word_ext {v w : Word} (hl : v.low = w.low) (hh : v.high = w.high) : v = w := by
  rw [← Word.ofBytes_high_low v, ← Word.ofBytes_high_low w, hl, hh]

theorem get_byte {r : ByteRegister} (h : r ≠ .status) (s : Stage) :
    get (byte r) s = s.datapath.byte r :=
  if_neg h

/-- The cells determine the stage. -/
theorem separates_get : Separates get := by
  intro s t h
  have hbyte : ∀ r, r ≠ .status → s.datapath.byte r = t.datapath.byte r := by
    intro r hr
    have hr' := h (byte r)
    rw [get_byte hr, get_byte hr] at hr'
    exact hr'
  have hstatus : s.datapath.status = t.datapath.status := Status.ext_value fun f => h (bit f)
  have hpc : s.datapath.pc = t.datapath.pc :=
    word_ext (hbyte .pcLow (by decide)) (hbyte .pcHigh (by decide))
  have hmar : s.datapath.mar = t.datapath.mar :=
    word_ext (hbyte .marLow (by decide)) (hbyte .marHigh (by decide))
  have htmp : s.datapath.tmp = t.datapath.tmp := h tmp
  have hmemory : s.datapath.memory = t.datapath.memory := h memory
  have hdata : s.buses.data = t.buses.data := h data
  have haddress : s.buses.address = t.buses.address := h address
  have hinject : s.controller.injectInterrupt = t.controller.injectInterrupt := h injectInterrupt
  have hsc : s.controller.sc = t.controller.sc := h sc
  have hipc : s.controller.ipc = t.controller.ipc := h ipc
  have hmicrocode : s.controller.instructionMemory = t.controller.instructionMemory := h microcode
  have ha := hbyte .a (by decide)
  have hx := hbyte .x (by decide)
  have hy := hbyte .y (by decide)
  have hsp := hbyte .sp (by decide)
  have hlhs := hbyte .aluLhs (by decide)
  have hrhs := hbyte .aluRhs (by decide)
  have hresult := hbyte .aluResult (by decide)
  have hoffset := hbyte .pcSignedOffset (by decide)
  have hanalyzer := hbyte .statusAnalyzer (by decide)
  have hir := hbyte .ir (by decide)
  have hmarOffset := hbyte .marOffset (by decide)
  rcases s with ⟨⟨⟩, ⟨⟩, ⟨⟩⟩
  rcases t with ⟨⟨⟩, ⟨⟩, ⟨⟩⟩
  simp_all [Datapath.byte]

theorem ofByte_eq {r : ByteRegister} (h : r ≠ .status) : ofByte r = [byte r] := by
  cases r <;> first | rfl | exact absurd rfl h

theorem bit_mem_statusBits (f : StatusBit) : bit f ∈ statusBits := by
  cases f <;> decide

theorem exists_of_mem_statusBits {k : Cell} (h : k ∈ statusBits) : ∃ f, k = bit f := by
  simp only [statusBits, List.mem_cons, List.not_mem_nil, or_false] at h
  rcases h with rfl | rfl | rfl | rfl | rfl | rfl | rfl | rfl <;> exact ⟨_, rfl⟩

theorem byte_setByte (d : Datapath) (r r' : ByteRegister) (v : Byte) :
    (d.setByte r v).byte r' = if r' = r then v else d.byte r' := by
  -- the ports of a word keep the other half
  cases r <;> cases r' <;> simp [Datapath.setByte, Datapath.byte, Word.low_ofBytes,
    Word.high_ofBytes]

theorem status_setByte {d : Datapath} {r : ByteRegister} (h : r ≠ .status) (v : Byte) :
    (d.setByte r v).status = d.status := by
  cases r <;> first | rfl | exact absurd rfl h

theorem byte_setWord (d : Datapath) (r : WordRegister) {r' : ByteRegister}
    (h : byte r' ∉ ofWord r) (v : Word) : (d.setWord r v).byte r' = d.byte r' := by
  cases r <;> cases r' <;> first | rfl | exact absurd (by decide) h

/-! ## Functions that change one register -/

section Loads

variable {R : List Cell}

/-- A byte register takes a value that depends on the cells `R`. -/
theorem footprint_setByte (r : ByteRegister) {v : Stage → Byte}
    (hv : ∀ s t, (∀ k ∈ R, get k s = get k t) → v s = v t) :
    Footprint get R (ofByte r) fun s =>
      { s with datapath := s.datapath.setByte r (v s) } where
  frame := by
    intro s k hk
    by_cases hr : r = .status
    · subst hr
      cases k with
      | bit f => exact absurd (bit_mem_statusBits f) hk
      | byte r' => cases r' <;> rfl
      | _ => rfl
    · rw [ofByte_eq hr, List.mem_singleton] at hk
      cases k with
      | bit f => exact congrArg (Status.value f) (status_setByte hr (v s))
      | byte r' =>
          have hne : r' ≠ r := fun h => hk (congrArg byte h)
          have hbyte := byte_setByte s.datapath r r' (v s)
          rw [if_neg hne] at hbyte
          show (if r' = .status then (0 : Byte) else _) = if r' = .status then (0 : Byte) else _
          rw [hbyte]
      | _ => cases r <;> rfl
  local_reads := by
    intro s t h k hk
    rw [hv s t h]
    by_cases hr : r = .status
    · subst hr
      rcases exists_of_mem_statusBits hk with ⟨f, rfl⟩
      rfl
    · rw [ofByte_eq hr, List.mem_singleton] at hk
      subst hk
      rw [get_byte hr, get_byte hr]
      show (s.datapath.setByte r (v t)).byte r = (t.datapath.setByte r (v t)).byte r
      rw [byte_setByte, byte_setByte, if_pos rfl, if_pos rfl]

/-- A word register takes a value that depends on the cells `R`. -/
theorem footprint_setWord (r : WordRegister) {v : Stage → Word}
    (hv : ∀ s t, (∀ k ∈ R, get k s = get k t) → v s = v t) :
    Footprint get R (ofWord r) fun s =>
      { s with datapath := s.datapath.setWord r (v s) } where
  frame := by
    intro s k hk
    cases k with
    | byte r' =>
        show (if r' = .status then (0 : Byte) else _) = if r' = .status then (0 : Byte) else _
        rw [byte_setWord s.datapath r hk]
    | tmp => cases r <;> first | rfl | exact absurd (by decide) hk
    | _ => cases r <;> rfl
  local_reads := by
    intro s t h k hk
    rw [hv s t h]
    cases r with
    | tmp =>
        rw [List.mem_singleton.mp hk]
        rfl
    | _ =>
        rcases List.mem_cons.mp hk with rfl | hk
        · rfl
        · rw [List.mem_singleton.mp hk]
          rfl

/-- A bit of the status register takes a value that depends on the cells `R`. -/
theorem footprint_assignStatus (f : StatusBit) {v : Stage → Bool}
    (hv : ∀ s t, (∀ k ∈ R, get k s = get k t) → v s = v t) :
    Footprint get R [bit f] fun s =>
      { s with datapath := s.datapath.assignStatus f (v s) } where
  frame := by
    intro s k hk
    rw [List.mem_singleton] at hk
    cases k with
    | bit g =>
        have hne : g ≠ f := fun h => hk (congrArg bit h)
        exact (Status.value_assign f g (v s) _).trans (if_neg hne)
    | byte r => cases r <;> rfl
    | _ => rfl
  local_reads := by
    intro s t h k hk
    rw [List.mem_singleton.mp hk, hv s t h]
    have hself : ∀ status, Status.value f (Status.assign f (v t) status) = v t := fun status =>
      (Status.value_assign f f (v t) status).trans (if_pos rfl)
    exact (hself _).trans (hself _).symm

end Loads

/-! ## The arithmetic unit -/

/-- The cells that an operation reads: its operands, and the carry for the operations that take
one. -/
def aluReads : Nat → List Cell
  | 0x1 | 0x2 => [byte .aluLhs, byte .aluRhs, bit .carry]
  | 0x3 | 0x7 | 0x8 | 0xB => [byte .aluLhs]
  | 0x4 | 0x5 | 0x6 | 0xC => [byte .aluLhs, byte .aluRhs]
  | 0x9 | 0xA => [byte .aluLhs, bit .carry]
  | _ => []

def aluWrites : Nat → List Cell
  | 0x1 | 0x4 | 0x5 | 0x6 | 0x7 | 0x8 | 0x9 | 0xA => [byte .aluResult, bit .carry, bit .overflow]
  | 0x2 => [byte .aluResult, bit .carry]
  | 0x3 | 0xB | 0xC => [byte .aluResult]
  | _ => []

theorem result_execute_of_not_mem {n : Nat} (h : byte .aluResult ∉ aluWrites n)
    (lhs rhs result status : Byte) : (Alu.execute n lhs rhs result status).result = result := by
  unfold Alu.execute
  dsimp only
  split <;> first | rfl | exact absurd (by decide) h

theorem value_execute_of_not_mem {n : Nat} {f : StatusBit} (h : bit f ∉ aluWrites n)
    (lhs rhs result status : Byte) :
    Status.value f (Alu.execute n lhs rhs result status).status = Status.value f status := by
  unfold Alu.execute
  dsimp only
  split <;> first
    | rfl
    | (cases f <;> first
        | exact absurd (by decide) h
        | simp only [Status.value_assign, reduceCtorEq, if_false])

section Execute

variable {n : Nat} {lhs lhs' rhs rhs' result result' status status' : Byte}
  (hl : byte .aluLhs ∈ aluReads n → lhs = lhs') (hr : byte .aluRhs ∈ aluReads n → rhs = rhs')
  (hc : bit .carry ∈ aluReads n → Status.value .carry status = Status.value .carry status')

include hl hr hc

theorem result_execute_congr (h : byte .aluResult ∈ aluWrites n) :
    (Alu.execute n lhs rhs result status).result =
      (Alu.execute n lhs' rhs' result' status').result := by
  unfold Alu.execute
  dsimp only
  -- one case for each opcode; those above the last one write nothing
  split <;> first
    | rw [hl (by decide), hr (by decide), hc (by decide)]
    | rw [hl (by decide), hr (by decide)]
    | rw [hl (by decide), hc (by decide)]
    | rw [hl (by decide)]
    | simp_all [aluWrites]

theorem value_execute_congr {f : StatusBit} (h : bit f ∈ aluWrites n) :
    Status.value f (Alu.execute n lhs rhs result status).status =
      Status.value f (Alu.execute n lhs' rhs' result' status').status := by
  unfold Alu.execute
  dsimp only
  split
  case h_13 => simp_all [aluWrites]
  all_goals
    cases f <;> first
      | exact absurd h (by decide)
      | (simp only [Status.value_assign, reduceCtorEq, if_true, if_false]
         try
          first
          | rw [hl (by decide), hr (by decide), hc (by decide)]
          | rw [hl (by decide)])

end Execute

theorem byte_executeAlu (d : Datapath) (n : Nat) {r : ByteRegister} (hr : r ≠ .aluResult)
    (hs : r ≠ .status) : (d.executeAlu n).byte r = d.byte r := by
  cases r <;> first | rfl | exact absurd rfl hr | exact absurd rfl hs

theorem footprint_executeAlu (n : Nat) :
    Footprint get (aluReads n) (aluWrites n) fun s =>
      { s with datapath := s.datapath.executeAlu n } where
  frame := by
    intro s k hk
    cases k with
    | byte r =>
        by_cases hs : r = .status
        · rw [hs]
          rfl
        · rw [get_byte hs, get_byte hs]
          by_cases hr : r = .aluResult
          · rw [hr] at hk ⊢
            exact result_execute_of_not_mem hk _ _ _ _
          · exact byte_executeAlu s.datapath n hr hs
    | bit f => exact value_execute_of_not_mem hk _ _ _ _
    | _ => rfl
  local_reads := by
    intro s t h k hk
    have hl : byte .aluLhs ∈ aluReads n → s.datapath.aluLhs = t.datapath.aluLhs := h (byte .aluLhs)
    have hr : byte .aluRhs ∈ aluReads n → s.datapath.aluRhs = t.datapath.aluRhs := h (byte .aluRhs)
    have hc : bit .carry ∈ aluReads n →
        Status.value .carry s.datapath.status = Status.value .carry t.datapath.status :=
      h (bit .carry)
    have hkind : k = byte .aluResult ∨ ∃ f, k = bit f := by
      unfold aluWrites at hk
      split at hk <;> simp at hk <;> aesop
    rcases hkind with rfl | ⟨f, rfl⟩
    · exact result_execute_congr hl hr hc hk
    · exact value_execute_congr hl hr hc hk

end Cell

/-! ## The phases of a component -/

namespace Stage

variable (cs : Control → Bool)

def write (s : Stage) (c : Component) : Stage :=
  { s with
    datapath := (c.write cs (s.datapath, s.buses)).1
    buses := (c.write cs (s.datapath, s.buses)).2 }

def read (s : Stage) (c : Component) : Stage :=
  { s with datapath := c.read cs s.buses s.datapath }

def process (s : Stage) (c : Component) : Stage :=
  { s with
    datapath := c.process cs s.datapath
    controller := c.processController cs s.datapath s.controller }

end Stage

namespace Component

open Cell

variable (cs : Control → Bool)

/-- What the component reads in the Write phase. -/
def writeReads : Component → List Cell
  | byteRegister r => if cs r.write then ofByte r else []
  | wordRegister r => if cs r.write then ofWord r else []
  | memory => if cs .memoryWrite then Cell.memory :: ofWord .mar else []
  | _ => []

/-- What it changes there: a bus, and a device that is read. -/
def writeWrites : Component → List Cell
  | byteRegister r => if cs r.write then [data] else []
  | wordRegister r => if cs r.write then [address] else []
  | memory => if cs .memoryWrite then [Cell.memory, data] else []
  | _ => []

def readReads : Component → List Cell
  | byteRegister r => if cs r.read then [data] else []
  | wordRegister r => if cs r.read then [address] else []
  | _ => []

/-- What the component changes in the Read phase; the status analyzer sets two status bits. -/
def readWrites : Component → List Cell
  | byteRegister .statusAnalyzer =>
      if cs ByteRegister.statusAnalyzer.read then [byte .statusAnalyzer, bit .zero, bit .negative]
      else []
  | byteRegister r => if cs r.read then ofByte r else []
  | wordRegister r => if cs r.read then ofWord r else []
  | _ => []

/-- The asserted operation of the arithmetic unit. -/
def aluOpcode : Nat :=
  Alu.opcode (cs (.aluOpcodeBit 0)) (cs (.aluOpcodeBit 1)) (cs (.aluOpcodeBit 2))
    (cs (.aluOpcodeBit 3))

def processReads : Component → List Cell
  | byteRegister .sp =>
      if cs ByteRegister.sp.reset then []
      else if cs .spIncrement || cs .spDecrement then [byte .sp] else []
  | byteRegister .ir =>
      if cs ByteRegister.ir.reset then []
      else if cs .instructionStart then [bit .interruptDisable] else []
  | wordRegister .pc =>
      if cs WordRegister.pc.reset then []
      else if cs .pcAddSignedOffset then byte .pcSignedOffset :: ofWord .pc
      else if cs .pcIncrement then ofWord .pc else []
  | wordRegister .mar =>
      (if cs .marInterruptVector then [] else if cs .marIncrement || cs .marAddOffset then ofWord .mar
        else []) ++ if cs .marAddOffset then [byte .marOffset] else []
  | alu => aluReads (aluOpcode cs)
  | controller => if cs .instructionStart then ofWord .pc else []
  | ipc => if cs .ipcLatch then ofWord .pc else []
  | sc =>
      if cs .scReset then []
      else if cs .scIncrement || cs .scDecrement then [Cell.sc] else []
  | _ => []

def processWrites : Component → List Cell
  | byteRegister .sp =>
      if cs ByteRegister.sp.reset || cs .spIncrement || cs .spDecrement then [byte .sp] else []
  | byteRegister .ir =>
      if cs ByteRegister.ir.reset then [byte .ir, injectInterrupt]
      else if cs .instructionStart then [injectInterrupt] else []
  | byteRegister r => if cs r.reset then ofByte r else []
  | wordRegister .tmp => if cs WordRegister.tmp.reset then ofWord .tmp else []
  | wordRegister .pc =>
      if cs WordRegister.pc.reset || cs .pcIncrement || cs .pcAddSignedOffset then ofWord .pc else []
  | wordRegister .mar =>
      if cs .marInterruptVector || cs .marIncrement || cs .marAddOffset then ofWord .mar
      else if cs .marStackPage then [byte .marHigh] else []
  | alu => aluWrites (aluOpcode cs)
  | statusBit f => if cs f.set || cs f.clear then [bit f] else []
  | controller => if cs .instructionStart then [Cell.ipc] else []
  | ipc => if cs .ipcLatch then [Cell.ipc] else []
  | sc => if cs .scReset || cs .scIncrement || cs .scDecrement then [Cell.sc] else []
  | _ => []

/-! ## The footprints of the phases -/

theorem byte_eq_of_cells {r : ByteRegister} {s t : Stage}
    (h : ∀ k ∈ ofByte r, get k s = get k t) : s.datapath.byte r = t.datapath.byte r := by
  by_cases hr : r = .status
  · subst hr
    exact Status.ext_value fun f => h (bit f) (bit_mem_statusBits f)
  · have hr' := h (byte r) (by rw [ofByte_eq hr]; exact List.mem_singleton_self _)
    rw [get_byte hr, get_byte hr] at hr'
    exact hr'

theorem word_eq_of_cells {r : WordRegister} {s t : Stage}
    (h : ∀ k ∈ ofWord r, get k s = get k t) : s.datapath.word r = t.datapath.word r := by
  cases r with
  | tmp => exact h Cell.tmp (List.mem_singleton_self _)
  | pc => exact word_ext (h (byte .pcLow) (by decide)) (h (byte .pcHigh) (by decide))
  | mar => exact word_ext (h (byte .marLow) (by decide)) (h (byte .marHigh) (by decide))

theorem footprint_nil {f : Stage → Stage} (h : ∀ s, f s = s) : Footprint get [] [] f :=
  (Footprint.nil_iff separates_get).mpr h

theorem footprint_write (c : Component) :
    Footprint get (c.writeReads cs) (c.writeWrites cs) fun s => s.write cs c := by
  cases c with
  | byteRegister r =>
      by_cases h : cs r.write = true
      · simp only [writeReads, writeWrites, Stage.write, Component.write, if_pos h]
        refine ⟨fun s k hk => ?_, fun s t heq k hk => ?_⟩
        · cases k <;> first | rfl | exact absurd (List.mem_singleton_self _) hk
        · rw [List.mem_singleton.mp hk]
          exact congrArg some (byte_eq_of_cells heq)
      · simp only [writeReads, writeWrites, Stage.write, Component.write, if_neg h]
        exact footprint_nil fun _ => rfl
  | wordRegister r =>
      by_cases h : cs r.write = true
      · simp only [writeReads, writeWrites, Stage.write, Component.write, if_pos h]
        refine ⟨fun s k hk => ?_, fun s t heq k hk => ?_⟩
        · cases k <;> first | rfl | exact absurd (List.mem_singleton_self _) hk
        · rw [List.mem_singleton.mp hk]
          exact congrArg some (word_eq_of_cells heq)
      · simp only [writeReads, writeWrites, Stage.write, Component.write, if_neg h]
        exact footprint_nil fun _ => rfl
  | memory =>
      by_cases h : cs .memoryWrite = true
      · simp only [writeReads, writeWrites, Stage.write, Component.write, if_pos h]
        refine ⟨fun s k hk => ?_, fun s t heq k hk => ?_⟩
        · cases k with
          | memory => exact absurd List.mem_cons_self hk
          | data => exact absurd (List.mem_cons_of_mem _ (List.mem_singleton_self _)) hk
          | byte r => cases r <;> rfl
          | _ => rfl
        · have hmar : s.datapath.mar = t.datapath.mar :=
            word_eq_of_cells (r := .mar) fun j hj => heq j (List.mem_cons_of_mem _ hj)
          have hmemory : s.datapath.memory = t.datapath.memory := heq Cell.memory List.mem_cons_self
          rcases List.mem_cons.mp hk with rfl | hk
          · show s.datapath.memory.afterRead _ = t.datapath.memory.afterRead _
            rw [hmar, hmemory]
          · rw [List.mem_singleton.mp hk]
            show some (s.datapath.memory.byteAt _) = some (t.datapath.memory.byteAt _)
            rw [hmar, hmemory]
      · simp only [writeReads, writeWrites, Stage.write, Component.write, if_neg h]
        exact footprint_nil fun _ => rfl
  | _ => exact footprint_nil fun _ => rfl

theorem footprint_read (c : Component) :
    Footprint get (c.readReads cs) (c.readWrites cs) fun s => s.read cs c := by
  cases c with
  | byteRegister r =>
      by_cases h : cs r.read = true
      · have hdata : ∀ s t : Stage, (∀ k ∈ [data], get k s = get k t) →
            s.buses.data.getD 0 = t.buses.data.getD 0 := fun s t heq =>
          congrArg (·.getD 0) (show s.buses.data = t.buses.data from heq data (by simp))
        by_cases hr : r = .statusAnalyzer
        · -- the analyzer loads the byte, and then sets two bits from what it has loaded
          subst hr
          have hanalyzer : ∀ s t : Stage, (∀ k ∈ [byte .statusAnalyzer], get k s = get k t) →
              s.datapath.statusAnalyzer = t.datapath.statusAnalyzer := fun s t heq =>
            heq (byte .statusAnalyzer) (by simp)
          have hzero : Footprint get [byte .statusAnalyzer] [bit .zero] fun s =>
              { s with datapath := s.datapath.assignStatus .zero (s.datapath.statusAnalyzer == 0) } :=
            footprint_assignStatus .zero fun s t heq => by rw [hanalyzer s t heq]
          have hnegative : Footprint get [byte .statusAnalyzer] [bit .negative] fun s =>
              { s with
                datapath := s.datapath.assignStatus .negative
                  (s.datapath.statusAnalyzer &&& 0x80 != 0) } :=
            footprint_assignStatus .negative fun s t heq => by rw [hanalyzer s t heq]
          have hall := ((footprint_setByte .statusAnalyzer hdata).comp hzero).comp hnegative
          simp only [readReads, readWrites, Stage.read, Component.read, if_pos h]
          exact hall.mono (by decide)
        · have hload : ∀ (d : Datapath) v, d.load r v = d.setByte r v := by
            intro d v
            cases r <;> first | rfl | exact absurd rfl hr
          have hwrites : (byteRegister r).readWrites cs = ofByte r := by
            cases r <;> first | exact if_pos h | exact absurd rfl hr
          rw [hwrites]
          simp only [readReads, Stage.read, Component.read, if_pos h, hload]
          exact footprint_setByte r hdata
      · have hwrites : (byteRegister r).readWrites cs = [] := by
          cases r <;> exact if_neg h
        rw [hwrites]
        simp only [readReads, Stage.read, Component.read, if_neg h]
        exact footprint_nil fun _ => rfl
  | wordRegister r =>
      by_cases h : cs r.read = true
      · simp only [readReads, readWrites, Stage.read, Component.read, if_pos h]
        exact footprint_setWord r fun s t heq =>
          congrArg (·.getD 0) (show s.buses.address = t.buses.address from heq address (by simp))
      · simp only [readReads, readWrites, Stage.read, Component.read, if_neg h]
        exact footprint_nil fun _ => rfl
  | _ => exact footprint_nil fun _ => rfl

/-- A register of the controller takes the program counter. -/
theorem footprint_latch (p : Bool) :
    Footprint get (if p then ofWord .pc else []) (if p then [Cell.ipc] else []) fun s =>
      { s with
        controller := if p then { s.controller with ipc := s.datapath.pc } else s.controller } := by
  cases p with
  | false => exact footprint_nil fun _ => rfl
  | true =>
      refine ⟨fun s k hk => ?_, fun s t heq k hk => ?_⟩
      · cases k <;> first | rfl | exact absurd (List.mem_singleton_self _) hk
      · rw [List.mem_singleton.mp hk]
        exact word_eq_of_cells (r := .pc) heq

theorem footprint_setSc {R : List Cell} {v : Stage → Byte}
    (hv : ∀ s t, (∀ k ∈ R, get k s = get k t) → v s = v t) :
    Footprint get R [Cell.sc] fun s =>
      { s with controller := { s.controller with sc := v s } } := by
  refine ⟨fun s k hk => ?_, fun s t heq k hk => ?_⟩
  · cases k <;> first | rfl | exact absurd (List.mem_singleton_self _) hk
  · rw [List.mem_singleton.mp hk]
    exact hv s t heq

theorem footprint_sc :
    Footprint get (sc.processReads cs) (sc.processWrites cs) fun s => s.process cs sc := by
  have hsc : ∀ s t : Stage, (∀ k ∈ [Cell.sc], get k s = get k t) →
      s.controller.sc = t.controller.sc := fun s t heq => heq Cell.sc (by simp)
  cases hr : cs .scReset with
  | true =>
      simp only [processReads, processWrites, Stage.process, process, processController, hr,
        if_true, Bool.true_or]
      exact footprint_setSc (v := fun _ => 0) fun _ _ _ => rfl
  | false =>
      cases hi : cs .scIncrement with
      | true =>
          simp only [processReads, processWrites, Stage.process, process, processController, hr, hi,
            if_true, Bool.true_or, Bool.or_true, Bool.false_eq_true, if_false]
          exact footprint_setSc fun s t heq => by rw [hsc s t heq]
      | false =>
          cases hd : cs .scDecrement with
          | true =>
              simp only [processReads, processWrites, Stage.process, process, processController, hr,
                hi, hd, if_true, Bool.or_true, Bool.false_eq_true, if_false]
              exact footprint_setSc fun s t heq => by rw [hsc s t heq]
          | false =>
              simp only [processReads, processWrites, Stage.process, process, processController, hr,
                hi, hd, Bool.or_self, Bool.false_eq_true, if_false]
              exact footprint_nil fun _ => rfl

theorem footprint_sp :
    Footprint get ((byteRegister .sp).processReads cs) ((byteRegister .sp).processWrites cs)
      fun s => s.process cs (byteRegister .sp) := by
  have hsp : ∀ s t : Stage, (∀ k ∈ [byte .sp], get k s = get k t) →
      s.datapath.sp = t.datapath.sp := fun s t heq => heq (byte .sp) (by simp)
  cases hr : cs ByteRegister.sp.reset with
  | true =>
      simp only [processReads, processWrites, Stage.process, process, processController, hr,
        if_true, Bool.true_or]
      exact footprint_setByte .sp (v := fun _ => 0) fun _ _ _ => rfl
  | false =>
      cases hi : cs .spIncrement with
      | true =>
          simp only [processReads, processWrites, Stage.process, process, processController, hr, hi,
            if_true, Bool.true_or, Bool.or_true, Bool.false_eq_true, if_false]
          exact footprint_setByte .sp (v := fun s => s.datapath.sp + 1) fun s t heq => by
            rw [hsp s t heq]
      | false =>
          cases hd : cs .spDecrement with
          | true =>
              simp only [processReads, processWrites, Stage.process, process, processController, hr,
                hi, hd, if_true, Bool.or_true, Bool.false_eq_true, if_false]
              exact footprint_setByte .sp (v := fun s => s.datapath.sp - 1) fun s t heq => by
                rw [hsp s t heq]
          | false =>
              simp only [processReads, processWrites, Stage.process, process, processController, hr,
                hi, hd, Bool.or_self, Bool.false_eq_true, if_false]
              exact footprint_nil fun _ => rfl

theorem footprint_ir :
    Footprint get ((byteRegister .ir).processReads cs) ((byteRegister .ir).processWrites cs)
      fun s => s.process cs (byteRegister .ir) := by
  have hinject : ∀ {R : List Cell} {v : Stage → Bool},
      (∀ s t, (∀ k ∈ R, get k s = get k t) → v s = v t) →
      Footprint get R [injectInterrupt] fun s =>
        { s with controller := { s.controller with injectInterrupt := v s } } := by
    intro R v hv
    refine ⟨fun s k hk => ?_, fun s t heq k hk => ?_⟩
    · cases k <;> first | rfl | exact absurd (List.mem_singleton_self _) hk
    · rw [List.mem_singleton.mp hk]
      exact hv s t heq
  cases hr : cs ByteRegister.ir.reset with
  | true =>
      simp only [processReads, processWrites, Stage.process, process, processController, hr,
        if_true]
      exact (footprint_setByte (R := []) .ir (v := fun _ => 0) fun _ _ _ => rfl).comp
        (hinject (R := []) (v := fun _ => false) fun _ _ _ => rfl)
  | false =>
      cases hs : cs .instructionStart with
      | true =>
          simp only [processReads, processWrites, Stage.process, process, processController, hr, hs,
            if_true, Bool.false_eq_true, if_false]
          refine hinject fun s t heq => ?_
          rw [show Status.value .interruptDisable s.datapath.status =
            Status.value .interruptDisable t.datapath.status from
              heq (bit .interruptDisable) (by simp)]
      | false =>
          simp only [processReads, processWrites, Stage.process, process, processController, hr, hs,
            Bool.false_eq_true, if_false]
          exact footprint_nil fun _ => rfl

theorem footprint_pc :
    Footprint get ((wordRegister .pc).processReads cs) ((wordRegister .pc).processWrites cs)
      fun s => s.process cs (wordRegister .pc) := by
  have hpc : ∀ s t : Stage, (∀ k ∈ ofWord .pc, get k s = get k t) →
      s.datapath.pc = t.datapath.pc := fun s t heq => word_eq_of_cells (r := .pc) heq
  cases hr : cs WordRegister.pc.reset with
  | true =>
      simp only [processReads, processWrites, Stage.process, process, processController, hr,
        if_true, Bool.true_or]
      exact footprint_setWord .pc (v := fun _ => 0) fun _ _ _ => rfl
  | false =>
      cases ha : cs .pcAddSignedOffset with
      | true =>
          have hoffset : ∀ s t : Stage, (∀ k ∈ byte .pcSignedOffset :: ofWord .pc,
              get k s = get k t) → s.datapath.pcSignedOffset = t.datapath.pcSignedOffset :=
            fun s t heq => heq (byte .pcSignedOffset) List.mem_cons_self
          have hpc' : ∀ s t : Stage, (∀ k ∈ byte .pcSignedOffset :: ofWord .pc,
              get k s = get k t) → s.datapath.pc = t.datapath.pc :=
            fun s t heq => hpc s t fun k hk => heq k (List.mem_cons_of_mem _ hk)
          -- of an increment and a branch in one step the increment comes first
          cases hi : cs .pcIncrement with
          | true =>
              simp only [processReads, processWrites, Stage.process, process, processController, hr,
                ha, hi, if_true, Bool.or_true, Bool.false_eq_true, if_false]
              exact footprint_setWord .pc
                (v := fun s => s.datapath.pc + 1 + s.datapath.pcSignedOffset.signExtend 16)
                fun s t heq => by rw [hpc' s t heq, hoffset s t heq]
          | false =>
              simp only [processReads, processWrites, Stage.process, process, processController, hr,
                ha, hi, if_true, Bool.or_true, Bool.false_eq_true, if_false]
              exact footprint_setWord .pc
                (v := fun s => s.datapath.pc + s.datapath.pcSignedOffset.signExtend 16)
                fun s t heq => by rw [hpc' s t heq, hoffset s t heq]
      | false =>
          cases hi : cs .pcIncrement with
          | true =>
              simp only [processReads, processWrites, Stage.process, process, processController, hr,
                ha, hi, if_true, Bool.or_true, Bool.true_or, Bool.false_eq_true, if_false]
              exact footprint_setWord .pc (v := fun s => s.datapath.pc + 1) fun s t heq => by
                rw [hpc s t heq]
          | false =>
              simp only [processReads, processWrites, Stage.process, process, processController, hr,
                ha, hi, Bool.or_self, Bool.false_eq_true, if_false]
              exact footprint_nil fun _ => rfl

/-- The memory address register after the Process phase. -/
def marNext (m : Word) (offset : Byte) : Word :=
  let m := if cs .marInterruptVector then 0xFFFE else m
  let m := if cs .marStackPage then Word.ofBytes 0x01 m.low else m
  let m := if cs .marIncrement then m + 1 else m
  if cs .marAddOffset then Datapath.addOffset m offset else m

theorem process_mar (s : Stage) :
    s.process cs (wordRegister .mar) =
      { s with
        datapath := s.datapath.setWord .mar (marNext cs s.datapath.mar s.datapath.marOffset) } := by
  simp only [Stage.process, process, processController, marNext, Datapath.setWord]
  cases cs .marInterruptVector <;> cases cs .marStackPage <;> cases cs .marIncrement <;>
    cases cs .marAddOffset <;>
    simp only [if_true, if_false, Bool.false_eq_true, Datapath.setByte]

theorem footprint_mar :
    Footprint get ((wordRegister .mar).processReads cs) ((wordRegister .mar).processWrites cs)
      fun s => s.process cs (wordRegister .mar) := by
  by_cases hword : (cs .marInterruptVector || cs .marIncrement || cs .marAddOffset) = true
  · have hwrites : (wordRegister .mar).processWrites cs = ofWord .mar := if_pos hword
    simp only [hwrites, process_mar]
    refine footprint_setWord .mar fun s t heq => ?_
    -- the vector replaces the old address, and the offset only matters when it is added
    have hoffset : cs .marAddOffset = true → s.datapath.marOffset = t.datapath.marOffset := by
      intro h
      refine heq (byte .marOffset) ?_
      simp only [processReads, h, if_true]
      exact List.mem_append_right _ (List.mem_singleton_self _)
    have hmar : cs .marInterruptVector = false → s.datapath.mar = t.datapath.mar := by
      intro h
      refine word_eq_of_cells (r := .mar) fun k hk => heq k (List.mem_append_left _ ?_)
      rw [h, Bool.false_or] at hword
      rw [h, hword]
      exact hk
    unfold marNext
    cases hv : cs .marInterruptVector with
    | true =>
        cases ha : cs .marAddOffset with
        | true => simp only [if_true, hoffset ha]
        | false => simp only [if_true, Bool.false_eq_true, if_false]
    | false =>
        cases ha : cs .marAddOffset with
        | true => simp only [if_true, hoffset ha, hmar hv]
        | false => simp only [Bool.false_eq_true, if_false, hmar hv]
  · have hnone := hword
    rw [Bool.not_eq_true, Bool.or_eq_false_iff, Bool.or_eq_false_iff] at hnone
    rcases hnone with ⟨⟨hv, hi⟩, ha⟩
    cases hs : cs .marStackPage with
    | true =>
        simp only [processReads, processWrites, Stage.process, process, processController, hv, hi, ha,
          hs, Bool.or_self, Bool.false_eq_true, if_false, if_true]
        exact footprint_setByte .marHigh (v := fun _ => 0x01) fun _ _ _ => rfl
    | false =>
        simp only [processReads, processWrites, Stage.process, process, processController, hv, hi, ha,
          hs, Bool.or_self, Bool.false_eq_true, if_false]
        exact footprint_nil fun _ => rfl

theorem footprint_process (c : Component) :
    Footprint get (c.processReads cs) (c.processWrites cs) fun s => s.process cs c := by
  cases c with
  | byteRegister r =>
      by_cases hsp : r = .sp
      · rw [hsp]
        exact footprint_sp cs
      · by_cases hir : r = .ir
        · rw [hir]
          exact footprint_ir cs
        · have hreads : (byteRegister r).processReads cs = [] := by
            cases r <;> first | rfl | exact absurd rfl hsp | exact absurd rfl hir
          have hwrites : (byteRegister r).processWrites cs = if cs r.reset then ofByte r else [] := by
            cases r <;> first | rfl | exact absurd rfl hsp | exact absurd rfl hir
          have hprocess : ∀ s : Stage, s.process cs (byteRegister r) =
              if cs r.reset then { s with datapath := s.datapath.setByte r 0 } else s := by
            intro s
            cases r <;> first
              | exact absurd rfl hsp
              | exact absurd rfl hir
              | (simp only [Stage.process, process, processController]
                 split <;> rfl)
          rw [hreads, hwrites]
          simp only [hprocess]
          by_cases h : cs r.reset = true
          · simp only [if_pos h]
            exact footprint_setByte r (v := fun _ => 0) fun _ _ _ => rfl
          · simp only [if_neg h]
            exact footprint_nil fun _ => rfl
  | wordRegister r =>
      cases r with
      | pc => exact footprint_pc cs
      | mar => exact footprint_mar cs
      | tmp =>
          by_cases h : cs WordRegister.tmp.reset = true
          · simp only [processReads, processWrites, Stage.process, process, processController,
              if_pos h]
            exact footprint_setWord .tmp (v := fun _ => 0) fun _ _ _ => rfl
          · simp only [processReads, processWrites, Stage.process, process, processController,
              if_neg h]
            exact footprint_nil fun _ => rfl
  | alu => exact footprint_executeAlu (aluOpcode cs)
  | statusBit f =>
      by_cases h : (cs f.set || cs f.clear) = true
      · simp only [processReads, processWrites, Stage.process, process, processController, if_pos h]
        exact footprint_assignStatus f (v := fun _ => cs f.set) fun _ _ _ => rfl
      · simp only [processReads, processWrites, Stage.process, process, processController, if_neg h]
        exact footprint_nil fun _ => rfl
  | controller => exact footprint_latch (cs .instructionStart)
  | ipc => exact footprint_latch (cs .ipcLatch)
  | sc => exact footprint_sc cs
  | _ => exact footprint_nil fun _ => rfl

end Component

end Irata2.Sim
