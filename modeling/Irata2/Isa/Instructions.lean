import Irata2.Base.Types

/-!
# The instruction set architecture

The table of `instructions.yaml`: every opcode with its mnemonic, its addressing mode and the
flags it is listed to affect.  The table keeps the order of the file.
-/

namespace Irata2.Isa

inductive Mnemonic
  | hlt
  | nop
  | lda
  | cmp
  | jeq
  | adc
  | sbc
  | and
  | ora
  | eor
  | asl
  | lsr
  | rol
  | ror
  | tax
  | txa
  | ldx
  | tay
  | tya
  | ldy
  | sta
  | stx
  | sty
  | inx
  | dex
  | iny
  | dey
  | inc
  | dec
  | beq
  | bne
  | bcs
  | bcc
  | bmi
  | bpl
  | bvs
  | bvc
  | pha
  | pla
  | php
  | plp
  | tsx
  | txs
  | jsr
  | rts
  | clc
  | sec
  | clv
  | cpx
  | cpy
  | bit
  | jmp
  | brk
  | irq
  | rti
  | crs
  deriving DecidableEq, Repr

/-- The mnemonic as `instructions.yaml` spells it. -/
def Mnemonic.name : Mnemonic → String
  | .hlt => "HLT"
  | .nop => "NOP"
  | .lda => "LDA"
  | .cmp => "CMP"
  | .jeq => "JEQ"
  | .adc => "ADC"
  | .sbc => "SBC"
  | .and => "AND"
  | .ora => "ORA"
  | .eor => "EOR"
  | .asl => "ASL"
  | .lsr => "LSR"
  | .rol => "ROL"
  | .ror => "ROR"
  | .tax => "TAX"
  | .txa => "TXA"
  | .ldx => "LDX"
  | .tay => "TAY"
  | .tya => "TYA"
  | .ldy => "LDY"
  | .sta => "STA"
  | .stx => "STX"
  | .sty => "STY"
  | .inx => "INX"
  | .dex => "DEX"
  | .iny => "INY"
  | .dey => "DEY"
  | .inc => "INC"
  | .dec => "DEC"
  | .beq => "BEQ"
  | .bne => "BNE"
  | .bcs => "BCS"
  | .bcc => "BCC"
  | .bmi => "BMI"
  | .bpl => "BPL"
  | .bvs => "BVS"
  | .bvc => "BVC"
  | .pha => "PHA"
  | .pla => "PLA"
  | .php => "PHP"
  | .plp => "PLP"
  | .tsx => "TSX"
  | .txs => "TXS"
  | .jsr => "JSR"
  | .rts => "RTS"
  | .clc => "CLC"
  | .sec => "SEC"
  | .clv => "CLV"
  | .cpx => "CPX"
  | .cpy => "CPY"
  | .bit => "BIT"
  | .jmp => "JMP"
  | .brk => "BRK"
  | .irq => "IRQ"
  | .rti => "RTI"
  | .crs => "CRS"

inductive AddressingMode
  | imp
  | imm
  | abs
  | ind
  | izx
  | izy
  | zp
  | zpx
  | zpy
  | abx
  | aby
  | rel
  deriving DecidableEq, Repr

/-- The number of operand bytes that follow the opcode. -/
def AddressingMode.operands : AddressingMode → Nat
  | .imp => 0
  | .imm => 1
  | .abs => 2
  | .ind => 2
  | .izx => 1
  | .izy => 1
  | .zp => 1
  | .zpx => 1
  | .zpy => 1
  | .abx => 2
  | .aby => 2
  | .rel => 1

inductive StatusFlag
  | zero
  | negative
  | carry
  | overflow
  deriving DecidableEq, Repr

structure InstructionInfo where
  mnemonic : Mnemonic
  opcode : Byte
  addressingMode : AddressingMode
  flagsAffected : List StatusFlag
  deriving DecidableEq, Repr

def instructions : List InstructionInfo :=
  [⟨.hlt, 0x01, .imp, []⟩,
   ⟨.nop, 0x02, .imp, []⟩,
   ⟨.lda, 0x10, .imm, [.zero, .negative]⟩,
   ⟨.cmp, 0x11, .imm, [.zero, .negative, .carry]⟩,
   ⟨.jeq, 0x12, .abs, []⟩,
   ⟨.adc, 0x20, .imm, [.zero, .negative, .carry, .overflow]⟩,
   ⟨.sbc, 0x21, .imm, [.zero, .negative, .carry, .overflow]⟩,
   ⟨.and, 0x22, .imm, [.zero, .negative]⟩,
   ⟨.ora, 0x23, .imm, [.zero, .negative]⟩,
   ⟨.eor, 0x24, .imm, [.zero, .negative]⟩,
   ⟨.asl, 0x25, .imp, [.zero, .negative, .carry]⟩,
   ⟨.lsr, 0x26, .imp, [.zero, .negative, .carry]⟩,
   ⟨.rol, 0x27, .imp, [.zero, .negative, .carry]⟩,
   ⟨.ror, 0x28, .imp, [.zero, .negative, .carry]⟩,
   ⟨.tax, 0x30, .imp, [.zero, .negative]⟩,
   ⟨.txa, 0x31, .imp, [.zero, .negative]⟩,
   ⟨.ldx, 0x32, .imm, [.zero, .negative]⟩,
   ⟨.tay, 0x33, .imp, [.zero, .negative]⟩,
   ⟨.tya, 0x34, .imp, [.zero, .negative]⟩,
   ⟨.ldy, 0x35, .imm, [.zero, .negative]⟩,
   ⟨.lda, 0x40, .zp, [.zero, .negative]⟩,
   ⟨.sta, 0x41, .zp, []⟩,
   ⟨.ldx, 0x42, .zp, [.zero, .negative]⟩,
   ⟨.stx, 0x43, .zp, []⟩,
   ⟨.ldy, 0x4e, .zp, [.zero, .negative]⟩,
   ⟨.sty, 0x4f, .zp, []⟩,
   ⟨.adc, 0x44, .zp, [.zero, .negative, .carry, .overflow]⟩,
   ⟨.sbc, 0x45, .zp, [.zero, .negative, .carry, .overflow]⟩,
   ⟨.and, 0x46, .zp, [.zero, .negative]⟩,
   ⟨.ora, 0x47, .zp, [.zero, .negative]⟩,
   ⟨.eor, 0x48, .zp, [.zero, .negative]⟩,
   ⟨.cmp, 0x49, .zp, [.zero, .negative, .carry]⟩,
   ⟨.asl, 0x4a, .zp, [.zero, .negative, .carry]⟩,
   ⟨.lsr, 0x4b, .zp, [.zero, .negative, .carry]⟩,
   ⟨.rol, 0x4c, .zp, [.zero, .negative, .carry]⟩,
   ⟨.ror, 0x4d, .zp, [.zero, .negative, .carry]⟩,
   ⟨.lda, 0x50, .abs, [.zero, .negative]⟩,
   ⟨.sta, 0x51, .abs, []⟩,
   ⟨.ldx, 0x52, .abs, [.zero, .negative]⟩,
   ⟨.stx, 0x53, .abs, []⟩,
   ⟨.ldy, 0x5e, .abs, [.zero, .negative]⟩,
   ⟨.sty, 0x5f, .abs, []⟩,
   ⟨.adc, 0x54, .abs, [.zero, .negative, .carry, .overflow]⟩,
   ⟨.sbc, 0x55, .abs, [.zero, .negative, .carry, .overflow]⟩,
   ⟨.and, 0x56, .abs, [.zero, .negative]⟩,
   ⟨.ora, 0x57, .abs, [.zero, .negative]⟩,
   ⟨.eor, 0x58, .abs, [.zero, .negative]⟩,
   ⟨.cmp, 0x59, .abs, [.zero, .negative, .carry]⟩,
   ⟨.asl, 0x5a, .abs, [.zero, .negative, .carry]⟩,
   ⟨.lsr, 0x5b, .abs, [.zero, .negative, .carry]⟩,
   ⟨.rol, 0x5c, .abs, [.zero, .negative, .carry]⟩,
   ⟨.ror, 0x5d, .abs, [.zero, .negative, .carry]⟩,
   ⟨.inx, 0x60, .imp, [.zero, .negative]⟩,
   ⟨.dex, 0x61, .imp, [.zero, .negative]⟩,
   ⟨.iny, 0x66, .imp, [.zero, .negative]⟩,
   ⟨.dey, 0x67, .imp, [.zero, .negative]⟩,
   ⟨.inc, 0x62, .zp, [.zero, .negative]⟩,
   ⟨.dec, 0x63, .zp, [.zero, .negative]⟩,
   ⟨.inc, 0x64, .abs, [.zero, .negative]⟩,
   ⟨.dec, 0x65, .abs, [.zero, .negative]⟩,
   ⟨.beq, 0x70, .rel, []⟩,
   ⟨.bne, 0x71, .rel, []⟩,
   ⟨.bcs, 0x72, .rel, []⟩,
   ⟨.bcc, 0x73, .rel, []⟩,
   ⟨.bmi, 0x74, .rel, []⟩,
   ⟨.bpl, 0x75, .rel, []⟩,
   ⟨.bvs, 0x76, .rel, []⟩,
   ⟨.bvc, 0x77, .rel, []⟩,
   ⟨.lda, 0x80, .zpx, [.zero, .negative]⟩,
   ⟨.sta, 0x81, .zpx, []⟩,
   ⟨.ldy, 0x82, .zpx, [.zero, .negative]⟩,
   ⟨.sty, 0x83, .zpx, []⟩,
   ⟨.adc, 0x84, .zpx, [.zero, .negative, .carry, .overflow]⟩,
   ⟨.sbc, 0x85, .zpx, [.zero, .negative, .carry, .overflow]⟩,
   ⟨.and, 0x86, .zpx, [.zero, .negative]⟩,
   ⟨.ora, 0x87, .zpx, [.zero, .negative]⟩,
   ⟨.eor, 0x88, .zpx, [.zero, .negative]⟩,
   ⟨.cmp, 0x89, .zpx, [.zero, .negative, .carry]⟩,
   ⟨.asl, 0x8a, .zpx, [.zero, .negative, .carry]⟩,
   ⟨.lsr, 0x8b, .zpx, [.zero, .negative, .carry]⟩,
   ⟨.rol, 0x8c, .zpx, [.zero, .negative, .carry]⟩,
   ⟨.ror, 0x8d, .zpx, [.zero, .negative, .carry]⟩,
   ⟨.inc, 0x8e, .zpx, [.zero, .negative]⟩,
   ⟨.dec, 0x8f, .zpx, [.zero, .negative]⟩,
   ⟨.ldx, 0x90, .zpy, [.zero, .negative]⟩,
   ⟨.stx, 0x91, .zpy, []⟩,
   ⟨.lda, 0xa0, .abx, [.zero, .negative]⟩,
   ⟨.sta, 0xa1, .abx, []⟩,
   ⟨.ldy, 0xa2, .abx, [.zero, .negative]⟩,
   ⟨.sty, 0xa3, .abx, []⟩,
   ⟨.adc, 0xa4, .abx, [.zero, .negative, .carry, .overflow]⟩,
   ⟨.sbc, 0xa5, .abx, [.zero, .negative, .carry, .overflow]⟩,
   ⟨.and, 0xa6, .abx, [.zero, .negative]⟩,
   ⟨.ora, 0xa7, .abx, [.zero, .negative]⟩,
   ⟨.eor, 0xa8, .abx, [.zero, .negative]⟩,
   ⟨.cmp, 0xa9, .abx, [.zero, .negative, .carry]⟩,
   ⟨.asl, 0xaa, .abx, [.zero, .negative, .carry]⟩,
   ⟨.lsr, 0xab, .abx, [.zero, .negative, .carry]⟩,
   ⟨.rol, 0xac, .abx, [.zero, .negative, .carry]⟩,
   ⟨.ror, 0xad, .abx, [.zero, .negative, .carry]⟩,
   ⟨.inc, 0xae, .abx, [.zero, .negative]⟩,
   ⟨.dec, 0xaf, .abx, [.zero, .negative]⟩,
   ⟨.lda, 0xb0, .aby, [.zero, .negative]⟩,
   ⟨.sta, 0xb1, .aby, []⟩,
   ⟨.ldx, 0xb2, .aby, [.zero, .negative]⟩,
   ⟨.stx, 0xb3, .aby, []⟩,
   ⟨.adc, 0xb4, .aby, [.zero, .negative, .carry, .overflow]⟩,
   ⟨.sbc, 0xb5, .aby, [.zero, .negative, .carry, .overflow]⟩,
   ⟨.and, 0xb6, .aby, [.zero, .negative]⟩,
   ⟨.ora, 0xb7, .aby, [.zero, .negative]⟩,
   ⟨.eor, 0xb8, .aby, [.zero, .negative]⟩,
   ⟨.cmp, 0xb9, .aby, [.zero, .negative, .carry]⟩,
   ⟨.pha, 0xc0, .imp, []⟩,
   ⟨.pla, 0xc1, .imp, [.zero, .negative]⟩,
   ⟨.php, 0xc2, .imp, []⟩,
   ⟨.plp, 0xc3, .imp, [.zero, .negative, .carry, .overflow]⟩,
   ⟨.tsx, 0xc4, .imp, [.zero, .negative]⟩,
   ⟨.txs, 0xc5, .imp, []⟩,
   ⟨.jsr, 0xc6, .abs, []⟩,
   ⟨.rts, 0xc7, .imp, []⟩,
   ⟨.clc, 0xc8, .imp, [.carry]⟩,
   ⟨.sec, 0xc9, .imp, [.carry]⟩,
   ⟨.clv, 0xca, .imp, [.overflow]⟩,
   ⟨.cpx, 0xcb, .imm, [.zero, .negative, .carry]⟩,
   ⟨.cpx, 0xcc, .zp, [.zero, .negative, .carry]⟩,
   ⟨.cpx, 0xcd, .abs, [.zero, .negative, .carry]⟩,
   ⟨.cpy, 0xce, .imm, [.zero, .negative, .carry]⟩,
   ⟨.cpy, 0xcf, .zp, [.zero, .negative, .carry]⟩,
   ⟨.cpy, 0xd0, .abs, [.zero, .negative, .carry]⟩,
   ⟨.bit, 0xd1, .zp, [.zero, .negative]⟩,
   ⟨.bit, 0xd2, .abs, [.zero, .negative]⟩,
   ⟨.jmp, 0xd3, .abs, []⟩,
   ⟨.jmp, 0xd4, .ind, []⟩,
   ⟨.lda, 0xd5, .izx, [.zero, .negative]⟩,
   ⟨.sta, 0xd6, .izx, []⟩,
   ⟨.adc, 0xd7, .izx, [.zero, .negative, .carry, .overflow]⟩,
   ⟨.sbc, 0xd8, .izx, [.zero, .negative, .carry, .overflow]⟩,
   ⟨.and, 0xd9, .izx, [.zero, .negative]⟩,
   ⟨.ora, 0xda, .izx, [.zero, .negative]⟩,
   ⟨.eor, 0xdb, .izx, [.zero, .negative]⟩,
   ⟨.cmp, 0xdc, .izx, [.zero, .negative, .carry]⟩,
   ⟨.lda, 0xdd, .izy, [.zero, .negative]⟩,
   ⟨.sta, 0xde, .izy, []⟩,
   ⟨.adc, 0xdf, .izy, [.zero, .negative, .carry, .overflow]⟩,
   ⟨.sbc, 0xe0, .izy, [.zero, .negative, .carry, .overflow]⟩,
   ⟨.and, 0xe1, .izy, [.zero, .negative]⟩,
   ⟨.ora, 0xe2, .izy, [.zero, .negative]⟩,
   ⟨.eor, 0xe3, .izy, [.zero, .negative]⟩,
   ⟨.cmp, 0xe4, .izy, [.zero, .negative, .carry]⟩,
   ⟨.brk, 0xe5, .imp, []⟩,
   ⟨.irq, 0x00, .imp, []⟩,
   ⟨.rti, 0xe6, .imp, []⟩,
   ⟨.crs, 0xff, .imp, []⟩]

/-- The opcode of a mnemonic in an addressing mode. -/
def opcodeOf (m : Mnemonic) (mode : AddressingMode) : Option Byte :=
  (instructions.find? fun i => i.mnemonic == m && i.addressingMode == mode).map (·.opcode)

theorem opcodes_nodup : (instructions.map (·.opcode)).Nodup := by
  decide +kernel

end Irata2.Isa
