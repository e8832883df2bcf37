import Irata2.Hdl.Control

/-!
# Simulator errors

One constructor for each `throw SimError` of the simulator's core, with the data its text prints.
-/

namespace Irata2.Sim

open Hdl

/-- How a control was touched when its phase was checked. -/
inductive ControlAction
  | read
  | set
  | assert
  deriving DecidableEq, Repr

def ControlAction.name : ControlAction → String
  | read => "read"
  | set => "set"
  | assert => "assert"

def busPath : BusType → String
  | .data => "data_bus"
  | .address => "address_bus"

inductive SimError
  | controlOutsidePhase (action : ControlAction) (expected : TickPhase) (control : Control)
  | busWriteOutsidePhase (bus : BusType)
  | busAlreadyWritten (bus : BusType)
  | busReadOutsidePhase (bus : BusType)
  | busReadBeforeWrite (bus : BusType) (reader : String)
  | moduleSizeZero
  | regionSizeNotPowerOfTwo (size : Nat)
  | regionOffsetNotAligned (offset : Word)
  | regionsOverlap (path other : String)
  | addressOutOfRegion (address : Word)
  | ramReadOutOfRange (index : Word)
  | ramWriteOutOfRange (index : Word)
  | romReadOutOfBounds (path : String) (index size : Nat)
  | romWriteForbidden (address : Word)
  | unmappedWrite (address : Word)
  | tooManyControls (count : Nat)
  | controlTableSizeMismatch
  | controlPathOrderMismatch (expected : String)
  | controlIndexOutOfRange (index count : Nat)
  | controlWordOverflow
  | microcodeKeyExceedsRom (key size : Nat)
  | tooManyStatusBits (count : Nat)
  | unknownStatusBit (name : String)
  | statusBitIndexMismatch (name : String) (expected actual : Nat)
  deriving DecidableEq, Repr

namespace SimError

def message : SimError → String
  | controlOutsidePhase action expected control =>
      "control " ++ action.name ++ " outside " ++ expected.name ++ " phase: " ++ control.path
  | busWriteOutsidePhase bus => "bus write outside write phase: " ++ busPath bus
  | busAlreadyWritten bus => "bus already written: " ++ busPath bus
  | busReadOutsidePhase bus => "bus read outside read phase: " ++ busPath bus
  | busReadBeforeWrite _ reader => "bus read before write: " ++ reader
  | moduleSizeZero => "memory module size must be non-zero"
  | regionSizeNotPowerOfTwo size => "memory region size is not power of two: " ++ toString size
  | regionOffsetNotAligned offset =>
      "memory region offset not aligned: " ++ toString offset.toNat
  | regionsOverlap path other => "memory regions overlap: " ++ path ++ " vs " ++ other
  | addressOutOfRegion address => "address out of region range: " ++ toString address.toNat
  | ramReadOutOfRange index => "RAM read out of range: " ++ toString index.toNat
  | ramWriteOutOfRange index => "RAM write out of range: " ++ toString index.toNat
  | romReadOutOfBounds path index size =>
      "ROM read out of bounds at " ++ path ++ ": index " ++ toString index ++
        " (size " ++ toString size ++ ")"
  | romWriteForbidden address => "ROM write forbidden at address " ++ toString address.toNat
  | unmappedWrite address => "memory write to unmapped address " ++ toString address.toNat
  | tooManyControls count => "too many controls for instruction memory: " ++ toString count
  | controlTableSizeMismatch => "control table size mismatch between HDL and microcode"
  | controlPathOrderMismatch expected => "control path order mismatch: " ++ expected
  | controlIndexOutOfRange index count =>
      "control index out of range: " ++ toString index ++ " (max: " ++ toString count ++ ")"
  | controlWordOverflow => "control word sets bits outside control table"
  | microcodeKeyExceedsRom key size =>
      "microcode key " ++ toString key ++ " exceeds ROM size " ++ toString size
  | tooManyStatusBits count => "too many status bits: " ++ toString count
  | unknownStatusBit name => "unknown status bit: " ++ name
  | statusBitIndexMismatch name expected actual =>
      "status bit index mismatch for " ++ name ++ ": expected " ++ toString expected ++
        ", got " ++ toString actual

/-- The errors of a tick that breaks the bus protocol or touches a control out of its phase. -/
def IsProtocol : SimError → Prop
  | controlOutsidePhase .. | busWriteOutsidePhase _ | busAlreadyWritten _ | busReadOutsidePhase _
  | busReadBeforeWrite .. => True
  | _ => False

/-- The errors of a store to a ROM or to an address without a region. -/
def IsMemoryWrite : SimError → Prop
  | romWriteForbidden _ | unmappedWrite _ => True
  | _ => False

/-- The errors of `InstructionMemory::Lookup`. -/
def IsLookup : SimError → Prop
  | romReadOutOfBounds .. | controlWordOverflow | controlIndexOutOfRange .. => True
  | _ => False

instance : DecidablePred IsProtocol := fun e => by
  cases e <;> unfold IsProtocol <;> infer_instance

instance : DecidablePred IsMemoryWrite := fun e => by
  cases e <;> unfold IsMemoryWrite <;> infer_instance

end SimError

end Irata2.Sim
