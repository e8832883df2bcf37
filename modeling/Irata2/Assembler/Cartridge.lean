import Irata2.Base.Types

/-!
# Cartridge files, as the assembler writes them

A header of 32 bytes, with its numbers little-endian, in front of the ROM.
-/

namespace Irata2.Assembler

def cartridgeHeaderSize : Word := 32

def cartridgeVersion : Word := 1

structure CartridgeHeader where
  magic : Vector Byte 4 := cartridgeMagic
  version : Word := cartridgeVersion
  headerSize : Word := cartridgeHeaderSize
  entry : Word := 0x8000
  romSize : BitVec 32 := 0
  reserved : Vector Byte 18 := Vector.replicate 18 0
  deriving DecidableEq

/-- `AppendU16` -/
def appendU16 (out : List Byte) (value : Word) : List Byte :=
  out ++ [(value &&& 0xFF).setWidth 8, ((value >>> 8) &&& 0xFF).setWidth 8]

/-- `AppendU32` -/
def appendU32 (out : List Byte) (value : BitVec 32) : List Byte :=
  out ++ [(value &&& 0xFF).setWidth 8, ((value >>> 8) &&& 0xFF).setWidth 8,
    ((value >>> 16) &&& 0xFF).setWidth 8, ((value >>> 24) &&& 0xFF).setWidth 8]

/-- `EncodeHeader` -/
def encodeHeader (header : CartridgeHeader) : List Byte :=
  let out := header.magic.toList
  let out := appendU16 out header.version
  let out := appendU16 out header.headerSize
  let out := appendU16 out header.entry
  let out := appendU32 out header.romSize
  let out := out ++ header.reserved.toList
  -- padding up to the size of a header
  out ++ List.replicate (cartridgeHeaderSize.toNat - out.length) 0

/-- The bytes that `WriteCartridge` writes. -/
def cartridgeFile (header : CartridgeHeader) (rom : List Byte) : List Byte :=
  encodeHeader header ++ rom

theorem length_encodeHeader (header : CartridgeHeader) : (encodeHeader header).length = 32 := by
  have hm : header.magic.toList.length = 4 := Vector.length_toList
  have hr : header.reserved.toList.length = 18 := Vector.length_toList
  simp only [encodeHeader, appendU16, appendU32, List.length_append, List.length_cons,
    List.length_nil, List.length_replicate, hm, hr]
  rfl

/-- The fields of a header lie one behind the other. -/
theorem cartridgeFile_eq (header : CartridgeHeader) (rom : List Byte) :
    ∃ reserved : List Byte, reserved.length = 18 ∧ cartridgeFile header rom =
      header.magic.toList ++
        [(header.version &&& 0xFF).setWidth 8, ((header.version >>> 8) &&& 0xFF).setWidth 8,
          (header.headerSize &&& 0xFF).setWidth 8, ((header.headerSize >>> 8) &&& 0xFF).setWidth 8,
          (header.entry &&& 0xFF).setWidth 8, ((header.entry >>> 8) &&& 0xFF).setWidth 8,
          (header.romSize &&& 0xFF).setWidth 8, ((header.romSize >>> 8) &&& 0xFF).setWidth 8,
          ((header.romSize >>> 16) &&& 0xFF).setWidth 8,
          ((header.romSize >>> 24) &&& 0xFF).setWidth 8] ++ reserved ++ rom := by
  have hm : header.magic.toList.length = 4 := Vector.length_toList
  have hr : header.reserved.toList.length = 18 := Vector.length_toList
  refine ⟨header.reserved.toList, hr, ?_⟩
  unfold cartridgeFile encodeHeader
  simp only [appendU16, appendU32, List.length_append, List.length_cons, hm, hr,
    List.append_assoc, List.cons_append, List.nil_append]
  rfl

end Irata2.Assembler
