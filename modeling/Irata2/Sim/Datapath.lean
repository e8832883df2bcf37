import Irata2.Library.Submask
import Irata2.Sim.Memory

/-!
# The datapath

The registers of the CPU with the operations their components apply to them: loads, counters, the
arithmetic unit, the status bits and the address arithmetic of the program counter and of the
memory address register.
-/

namespace Irata2.Sim

open Hdl Library

/-- The registers on the two buses, and the memory.  The low and high ports of the program counter
and of the memory address register are the halves of their words. -/
structure Datapath where
  a : Byte
  x : Byte
  y : Byte
  sp : Byte
  tmp : Word
  aluLhs : Byte
  aluRhs : Byte
  aluResult : Byte
  pc : Word
  pcSignedOffset : Byte
  status : Byte
  statusAnalyzer : Byte
  ir : Byte
  mar : Word
  marOffset : Byte
  memory : Memory

/-! ## Status bits -/

namespace Status

/-- `Status::value` -/
def value (f : StatusBit) (status : Byte) : Bool := status.getLsbD f.bitIndex

/-- `Status::Set` -/
def assign (f : StatusBit) (v : Bool) (status : Byte) : Byte :=
  if v then status ||| (1#8 <<< f.bitIndex) else status &&& ~~~(1#8 <<< f.bitIndex)

theorem value_assign (f g : StatusBit) (v : Bool) (status : Byte) :
    value g (assign f v status) = if g = f then v else value g status := by
  unfold value assign
  have hf := f.bitIndex_lt
  have hg := g.bitIndex_lt
  by_cases hgf : g = f
  · subst hgf
    rw [if_pos rfl]
    cases v with
    | true => rw [if_pos rfl, BitVec.getLsbD_or, getLsbD_one_shiftLeft]; simp [hg]
    | false =>
        rw [if_neg (by decide), BitVec.getLsbD_and, BitVec.getLsbD_not, getLsbD_one_shiftLeft]
        simp [hg]
  · have hne : f.bitIndex ≠ g.bitIndex := fun h => hgf (StatusBit.bitIndex_injective h).symm
    rw [if_neg hgf]
    cases v with
    | true => rw [if_pos rfl, BitVec.getLsbD_or, getLsbD_one_shiftLeft]; simp [hne]
    | false =>
        rw [if_neg (by decide), BitVec.getLsbD_and, BitVec.getLsbD_not, getLsbD_one_shiftLeft]
        simp [hg, hne]

/-- A status byte is determined by its named bits. -/
theorem ext_value {s t : Byte} (h : ∀ f, value f s = value f t) : s = t := by
  apply BitVec.eq_of_getLsbD_eq
  intro i hi
  have hbit : ∃ f : StatusBit, f.bitIndex = i := by
    interval_cases i
    · exact ⟨.carry, rfl⟩
    · exact ⟨.zero, rfl⟩
    · exact ⟨.interruptDisable, rfl⟩
    · exact ⟨.decimal, rfl⟩
    · exact ⟨.brk, rfl⟩
    · exact ⟨.unused, rfl⟩
    · exact ⟨.overflow, rfl⟩
    · exact ⟨.negative, rfl⟩
  rcases hbit with ⟨f, rfl⟩
  exact h f

end Status

/-! ## The arithmetic unit -/

namespace Alu

/-- What an operation leaves in the result register and in the status register. -/
structure Output where
  result : Byte
  status : Byte

/-- `Alu::TickProcess` on the opcode of the asserted bits, with the 16-bit arithmetic of the
source; opcode 0 and the opcodes above 12 do nothing. -/
def execute (opcode : Nat) (lhs rhs result status : Byte) : Output :=
  let carryIn := Status.value .carry status
  let borrow : Word := if carryIn then 0 else 1
  let lhs : Word := lhs.setWidth 16
  let rhs : Word := rhs.setWidth 16
  match opcode with
  | 0x1 =>
      let sum : Word := lhs + rhs + if carryIn then 1 else 0
      let lhsSign := lhs &&& 0x80 != 0
      let rhsSign := rhs &&& 0x80 != 0
      let resultSign := sum &&& 0x80 != 0
      let overflow := lhsSign == rhsSign && lhsSign != resultSign
      ⟨sum.setWidth 8,
        Status.assign .overflow overflow
          (Status.assign .carry (decide (sum > 0xFF)) status)⟩
  | 0x2 =>
      let subtrahend := rhs + borrow
      ⟨(lhs - subtrahend).setWidth 8, Status.assign .carry (decide (lhs ≥ subtrahend)) status⟩
  | 0x3 => ⟨(lhs + 1).setWidth 8, status⟩
  | 0x4 =>
      ⟨(lhs &&& rhs).setWidth 8,
        Status.assign .overflow false (Status.assign .carry false status)⟩
  | 0x5 =>
      ⟨(lhs ||| rhs).setWidth 8,
        Status.assign .overflow false (Status.assign .carry false status)⟩
  | 0x6 =>
      ⟨(lhs ^^^ rhs).setWidth 8,
        Status.assign .overflow false (Status.assign .carry false status)⟩
  | 0x7 =>
      ⟨lhs.setWidth 8 <<< 1,
        Status.assign .overflow false (Status.assign .carry (lhs &&& 0x80 != 0) status)⟩
  | 0x8 =>
      ⟨lhs.setWidth 8 >>> 1,
        Status.assign .overflow false (Status.assign .carry (lhs &&& 0x01 != 0) status)⟩
  | 0x9 =>
      ⟨lhs.setWidth 8 <<< 1 ||| if carryIn then 1 else 0,
        Status.assign .overflow false (Status.assign .carry (lhs &&& 0x80 != 0) status)⟩
  | 0xA =>
      ⟨lhs.setWidth 8 >>> 1 ||| if carryIn then 0x80 else 0,
        Status.assign .overflow false (Status.assign .carry (lhs &&& 0x01 != 0) status)⟩
  | 0xB => ⟨(lhs - 1).setWidth 8, status⟩
  | 0xC => ⟨(lhs &&& rhs).setWidth 8, status⟩
  | _ => ⟨result, status⟩

/-- The opcode of the asserted opcode bits. -/
def opcode (bit0 bit1 bit2 bit3 : Bool) : Nat :=
  (if bit0 then 1 <<< 0 else 0) ||| (if bit1 then 1 <<< 1 else 0) |||
    (if bit2 then 1 <<< 2 else 0) ||| (if bit3 then 1 <<< 3 else 0)

end Alu

/-! ## Register operations -/

namespace Datapath

/-- The byte a register drives onto the data bus. -/
def byte (d : Datapath) : ByteRegister → Byte
  | .a => d.a
  | .x => d.x
  | .y => d.y
  | .sp => d.sp
  | .aluLhs => d.aluLhs
  | .aluRhs => d.aluRhs
  | .aluResult => d.aluResult
  | .pcLow => d.pc.low
  | .pcHigh => d.pc.high
  | .pcSignedOffset => d.pcSignedOffset
  | .status => d.status
  | .statusAnalyzer => d.statusAnalyzer
  | .ir => d.ir
  | .marLow => d.mar.low
  | .marHigh => d.mar.high
  | .marOffset => d.marOffset

def setByte (d : Datapath) (r : ByteRegister) (v : Byte) : Datapath :=
  match r with
  | .a => { d with a := v }
  | .x => { d with x := v }
  | .y => { d with y := v }
  | .sp => { d with sp := v }
  | .aluLhs => { d with aluLhs := v }
  | .aluRhs => { d with aluRhs := v }
  | .aluResult => { d with aluResult := v }
  | .pcLow => { d with pc := Word.ofBytes d.pc.high v }
  | .pcHigh => { d with pc := Word.ofBytes v d.pc.low }
  | .pcSignedOffset => { d with pcSignedOffset := v }
  | .status => { d with status := v }
  | .statusAnalyzer => { d with statusAnalyzer := v }
  | .ir => { d with ir := v }
  | .marLow => { d with mar := Word.ofBytes d.mar.high v }
  | .marHigh => { d with mar := Word.ofBytes v d.mar.low }
  | .marOffset => { d with marOffset := v }

def word (d : Datapath) : WordRegister → Word
  | .tmp => d.tmp
  | .pc => d.pc
  | .mar => d.mar

def setWord (d : Datapath) (r : WordRegister) (v : Word) : Datapath :=
  match r with
  | .tmp => { d with tmp := v }
  | .pc => { d with pc := v }
  | .mar => { d with mar := v }

def assignStatus (d : Datapath) (f : StatusBit) (v : Bool) : Datapath :=
  { d with status := Status.assign f v d.status }

/-- The two status bits that `StatusAnalyzer::TickRead` derives from the byte it has loaded. -/
def analyze (d : Datapath) : Datapath :=
  (d.assignStatus .zero (d.statusAnalyzer == 0)).assignStatus .negative
    (d.statusAnalyzer &&& 0x80 != 0)

/-- A load from the data bus; the status analyzer also sets the status bits. -/
def load (d : Datapath) (r : ByteRegister) (v : Byte) : Datapath :=
  match r with
  | .statusAnalyzer => (d.setByte .statusAnalyzer v).analyze
  | r => d.setByte r v

def executeAlu (d : Datapath) (opcode : Nat) : Datapath :=
  let output := Alu.execute opcode d.aluLhs d.aluRhs d.aluResult d.status
  { d with aluResult := output.result, status := output.status }

/-- The signed offset is added to the program counter modulo 2^16. -/
def addSignedOffset (d : Datapath) : Datapath :=
  { d with pc := d.pc + d.pcSignedOffset.signExtend 16 }

/-- Adds an offset to the low byte of an address and the carry to its high byte. -/
def addOffset (address : Word) (offset : Byte) : Word :=
  let sum : Word := address.low.setWidth 16 + offset.setWidth 16
  let carry : Byte := if sum > 0xFF then 1 else 0
  Word.ofBytes (address.high + carry) (sum.setWidth 8)

private theorem carry_toNat (h l o : Nat) (hl : l < 256) (hgt : 255 < l + o) (ho : o < 256) :
    (h + 1) % 256 * 256 + (l + o) % 256 = (h * 256 + l + o) % 65536 := by
  omega

/-- The byte-wise addition with carry is the addition of the words. -/
theorem addOffset_eq (address : Word) (offset : Byte) :
    addOffset address offset = address + offset.setWidth 16 := by
  have hsplit := Word.ofBytes_high_low address
  have haddr := congrArg BitVec.toNat hsplit
  rw [Word.toNat_ofBytes] at haddr
  have hlow : address.low.toNat < 256 := address.low.isLt
  have hoff : offset.toNat < 256 := offset.isLt
  have hsum : (address.low.setWidth 16 + offset.setWidth 16 : Word).toNat =
      address.low.toNat + offset.toNat := by
    rw [BitVec.toNat_add, BitVec.toNat_setWidth, BitVec.toNat_setWidth]
    omega
  have hlow' : ((address.low.setWidth 16 + offset.setWidth 16 : Word).setWidth 8).toNat =
      (address.low.toNat + offset.toNat) % 256 := by
    rw [BitVec.toNat_setWidth, hsum]
  have hadd : (address + offset.setWidth 16).toNat = (address.toNat + offset.toNat) % 65536 := by
    rw [BitVec.toNat_add, BitVec.toNat_setWidth]
    omega
  apply BitVec.eq_of_toNat_eq
  unfold addOffset
  rw [Word.toNat_ofBytes, hadd, hlow']
  by_cases hc : address.low.setWidth 16 + offset.setWidth 16 > (0xFF : Word)
  · have hgt : 255 < address.low.toNat + offset.toNat := by
      rw [← hsum]
      exact hc
    have hcarry : (address.high + 1#8).toNat = (address.high.toNat + 1) % 256 :=
      BitVec.toNat_add address.high 1#8
    rw [if_pos hc]
    change (address.high + 1#8).toNat * 256 + _ = _
    rw [hcarry, ← haddr]
    exact carry_toNat _ _ _ hlow hgt hoff
  · have hle : address.low.toNat + offset.toNat ≤ 255 := by
      rw [← hsum]
      exact Nat.not_lt.mp hc
    rw [if_neg hc]
    change (address.high + 0#8).toNat * 256 + _ = _
    rw [BitVec.add_zero]
    omega

end Datapath

end Irata2.Sim
