import Irata2.Assembler.Cartridge
import Irata2.Library.Checks

/-!
# Cartridge files, as the simulator loads them

The loader has its own header type and its own reading of the layout.  What it loads from a file
that the assembler has written is what the assembler wrote.
-/

namespace Irata2.Sim

open Library

def kCartridgeHeaderSize : Nat := 32

structure CartridgeHeader where
  magic : Vector Byte 4 := cartridgeMagic
  version : Word := 1
  headerSize : Word := 32
  entry : Word := 0x8000
  romSize : BitVec 32 := 0
  reserved : Vector Byte 18 := Vector.replicate 18 0

structure LoadedCartridge where
  header : CartridgeHeader
  rom : List Byte

/-- The errors of the loader; `undefined` stands for a read past the end of the file's bytes, which
the source does not check. -/
inductive CartridgeError
  | empty
  | headerTooSmall
  | magicMismatch
  | headerTruncated
  | headerSizeTooSmall
  | fileTruncated
  | undefined
  deriving DecidableEq, Repr

def CartridgeError.message (path : String) : CartridgeError → String
  | .empty => "cartridge file is empty: " ++ path
  | .headerTooSmall => "cartridge header too small"
  | .magicMismatch => "cartridge magic mismatch"
  | .headerTruncated => "cartridge header truncated"
  | .headerSizeTooSmall => "cartridge header size too small"
  | .fileTruncated => "cartridge file truncated"
  | .undefined => ""

/-- `data[offset]` -/
def byteOf (data : List Byte) (offset : Nat) : Except CartridgeError Byte :=
  match data[offset]? with
  | some b => .ok b
  | none => .error .undefined

/-- `ReadU16` -/
def readU16 (data : List Byte) (offset : Nat) : Except CartridgeError Word := do
  throwIf (offset + 1 ≥ data.length) CartridgeError.headerTruncated
  let low ← byteOf data offset
  let high ← byteOf data (offset + 1)
  pure (low.setWidth 16 ||| (high.setWidth 16 <<< 8))

/-- `ReadU32` -/
def readU32 (data : List Byte) (offset : Nat) : Except CartridgeError (BitVec 32) := do
  throwIf (offset + 3 ≥ data.length) CartridgeError.headerTruncated
  let b0 ← byteOf data offset
  let b1 ← byteOf data (offset + 1)
  let b2 ← byteOf data (offset + 2)
  let b3 ← byteOf data (offset + 3)
  pure (b0.setWidth 32 ||| (b1.setWidth 32 <<< 8) ||| (b2.setWidth 32 <<< 16) |||
    (b3.setWidth 32 <<< 24))

/-- `LoadCartridge` on the bytes of a file. -/
def loadCartridge (data : List Byte) : Except CartridgeError LoadedCartridge := do
  throwIf (data.length = 0) CartridgeError.empty
  throwIf (data.length < kCartridgeHeaderSize) CartridgeError.headerTooSmall
  let b0 ← byteOf data 0
  let b1 ← byteOf data 1
  let b2 ← byteOf data 2
  let b3 ← byteOf data 3
  let magic : Vector Byte 4 := #v[b0, b1, b2, b3]
  throwIf (magic ≠ cartridgeMagic) CartridgeError.magicMismatch
  let version ← readU16 data 4
  let headerSize ← readU16 data 6
  let entry ← readU16 data 8
  let romSize ← readU32 data 10
  throwIf (headerSize.toNat < kCartridgeHeaderSize) CartridgeError.headerSizeTooSmall
  -- the sum is one of 32 bits before it is compared
  throwIf (data.length < (headerSize.setWidth 32 + romSize).toNat) CartridgeError.fileTruncated
  let rom ← (List.range romSize.toNat).mapM fun i => byteOf data (headerSize.toNat + i)
  pure ⟨{ magic, version, headerSize, entry, romSize }, rom⟩

/-! ## Reading back -/

theorem byteOf_append_right (front rom : List Byte) (i : Nat) (h : i < rom.length) :
    byteOf (front ++ rom) (front.length + i) = .ok rom[i] := by
  unfold byteOf
  rw [List.getElem?_append_right (Nat.le_add_right _ _), Nat.add_sub_cancel_left,
    List.getElem?_eq_getElem h]

/-- Reading the bytes behind the header one by one gives the ROM. -/
theorem mapM_byteOf (front rom : List Byte) :
    (List.range rom.length).mapM (fun i => byteOf (front ++ rom) (front.length + i)) =
      .ok rom := by
  have hread : ∀ i ∈ List.range rom.length,
      byteOf (front ++ rom) (front.length + i) = .ok (rom[i]?.getD 0) := by
    intro i hi
    have hlt := List.mem_range.mp hi
    rw [byteOf_append_right front rom i hlt, List.getElem?_eq_getElem hlt, Option.getD_some]
  rw [mapM_eq_ok_of hread]
  congr 1
  apply List.ext_getElem
  · rw [List.length_map, List.length_range]
  · intro i h₁ h₂
    rw [List.getElem_map, List.getElem_range, List.getElem?_eq_getElem h₂, Option.getD_some]

/-- The mask of the low byte does nothing to the low byte. -/
theorem setWidth_mask16 (v : Word) : (v &&& 0xFF).setWidth 8 = (v.setWidth 8 : Byte) := by
  rw [BitVec.setWidth_and]
  exact BitVec.and_allOnes

theorem setWidth_mask32 (v : BitVec 32) : (v &&& 0xFF).setWidth 8 = (v.setWidth 8 : Byte) := by
  rw [BitVec.setWidth_and]
  exact BitVec.and_allOnes

theorem word_of_halves (v : Word) :
    (((v &&& 0xFF).setWidth 8 : Byte).setWidth 16 |||
      ((((v >>> 8) &&& 0xFF).setWidth 8 : Byte).setWidth 16 <<< 8) : Word) = v := by
  rw [setWidth_mask16 (v >>> 8), BitVec.or_comm]
  exact Word.ofBytes_high_low v

theorem word32_of_quarters (v : BitVec 32) :
    (((v &&& 0xFF).setWidth 8 : Byte).setWidth 32 |||
      ((((v >>> 8) &&& 0xFF).setWidth 8 : Byte).setWidth 32 <<< 8) |||
      ((((v >>> 16) &&& 0xFF).setWidth 8 : Byte).setWidth 32 <<< 16) |||
      ((((v >>> 24) &&& 0xFF).setWidth 8 : Byte).setWidth 32 <<< 24) : BitVec 32) = v := by
  simp only [setWidth_mask32]
  apply BitVec.eq_of_getLsbD_eq
  intro i hi
  simp only [BitVec.getLsbD_or, BitVec.getLsbD_shiftLeft, BitVec.getLsbD_setWidth,
    BitVec.getLsbD_ushiftRight, hi, decide_true, Bool.true_and]
  -- exactly one of the four bytes has the bit
  by_cases h8 : i < 8
  · simp [h8, show i < 16 by omega, show i < 24 by omega]
  · by_cases h16 : i < 16
    · simp [h8, h16, show i < 24 by omega, show i - 8 < 8 by omega, show i - 8 < 32 by omega,
        show 8 + (i - 8) = i by omega]
    · by_cases h24 : i < 24
      · simp [h8, h16, h24, show ¬i - 8 < 8 by omega, show i - 16 < 8 by omega,
          show i - 16 < 32 by omega, show 16 + (i - 16) = i by omega]
      · simp [h8, h16, h24, show ¬i - 8 < 8 by omega, show ¬i - 16 < 8 by omega,
          show i - 24 < 8 by omega, show i - 24 < 32 by omega, show 24 + (i - 24) = i by omega]

/-- The loader reads back, from a file that the assembler has written, the header and the ROM. -/
theorem loadCartridge_cartridgeFile {header : Assembler.CartridgeHeader} {rom : List Byte}
    (hmagic : header.magic = cartridgeMagic) (hsize : header.headerSize = 32)
    (hrom : header.romSize.toNat = rom.length) (hlength : 32 + rom.length < 2 ^ 32) :
    loadCartridge (Assembler.cartridgeFile header rom) =
      .ok ⟨{ version := header.version, headerSize := 32, entry := header.entry,
             romSize := header.romSize }, rom⟩ := by
  have hfile := Assembler.length_encodeHeader header
  rcases Assembler.cartridgeFile_eq header rom with ⟨reserved, hreserved, heq⟩
  have hall : (Assembler.cartridgeFile header rom).length = 32 + rom.length := by
    unfold Assembler.cartridgeFile
    rw [List.length_append, hfile]
  have hbody : (List.range rom.length).mapM (fun i =>
      byteOf (Assembler.cartridgeFile header rom) (32 + i)) = .ok rom := by
    have h := mapM_byteOf (Assembler.encodeHeader header) rom
    rw [hfile] at h
    exact h
  -- the sum of the sizes is taken in 32 bits, where it does not wrap
  have hsum : ((32 : Word).setWidth 32 + header.romSize : BitVec 32).toNat = 32 + rom.length := by
    rw [BitVec.toNat_add, hrom]
    exact Nat.mod_eq_of_lt hlength
  rw [hmagic, hsize] at heq
  generalize Assembler.cartridgeFile header rom = data at heq hall hbody
  -- the loader reads the fields in the order they are written in, low byte first
  have h16 : ∀ offset low high, offset + 1 < data.length → data[offset]? = some low →
      data[offset + 1]? = some high →
      readU16 data offset = .ok (low.setWidth 16 ||| (high.setWidth 16 <<< 8)) := by
    intro offset low high hlt hl hh
    unfold readU16 byteOf
    rw [hl, hh, throwIf_eq_ok.mpr (Nat.not_le.mpr hlt)]
    rfl
  have hversion : readU16 data 4 = .ok header.version := by
    rw [h16 4 _ _ (by omega) (by rw [heq]; rfl) (by rw [heq]; rfl), word_of_halves]
  have hheader : readU16 data 6 = .ok 32 := by
    rw [h16 6 _ _ (by omega) (by rw [heq]; rfl) (by rw [heq]; rfl), word_of_halves]
  have hentry : readU16 data 8 = .ok header.entry := by
    rw [h16 8 _ _ (by omega) (by rw [heq]; rfl) (by rw [heq]; rfl), word_of_halves]
  have hromSize : readU32 data 10 = .ok header.romSize := by
    have hbytes : ∀ k b, data[10 + k]? = some b → byteOf data (10 + k) = .ok b := by
      intro k b hb
      unfold byteOf
      rw [hb]
    unfold readU32
    rw [throwIf_eq_ok.mpr (show ¬10 + 3 ≥ data.length by omega),
      hbytes 0 _ (by rw [heq]; rfl), hbytes 1 _ (by rw [heq]; rfl),
      hbytes 2 _ (by rw [heq]; rfl), hbytes 3 _ (by rw [heq]; rfl)]
    exact congrArg Except.ok (word32_of_quarters header.romSize)
  have hmagicBytes : byteOf data 0 = .ok 0x49 ∧ byteOf data 1 = .ok 0x52 ∧
      byteOf data 2 = .ok 0x54 ∧ byteOf data 3 = .ok 0x41 := by
    rw [heq]
    exact ⟨rfl, rfl, rfl, rfl⟩
  rcases hmagicBytes with ⟨h0, h1, h2, h3⟩
  unfold loadCartridge
  rw [throwIf_eq_ok.mpr (show ¬data.length = 0 by omega),
    throwIf_eq_ok.mpr (show ¬data.length < kCartridgeHeaderSize by
      unfold kCartridgeHeaderSize; omega), h0, h1, h2, h3, hversion, hheader, hentry, hromSize]
  show (throwIf (data.length < ((32 : Word).setWidth 32 + header.romSize : BitVec 32).toNat)
    CartridgeError.fileTruncated >>= fun _ =>
      ((List.range header.romSize.toNat).mapM fun i => byteOf data (32 + i)) >>= _) = _
  rw [hsum, throwIf_eq_ok.mpr (show ¬data.length < 32 + rom.length by omega), hrom, hbody]
  rfl

theorem loadCartridge_cartridgeFile_small :
    loadCartridge (Assembler.cartridgeFile { entry := 0x8000, romSize := 2 } [0x02, 0x01]) =
      .ok ⟨{ version := 1, headerSize := 32, entry := 0x8000, romSize := 2 }, [0x02, 0x01]⟩ :=
  loadCartridge_cartridgeFile rfl rfl rfl (by decide)

/-! ## Reading any file -/

/-- A place inside the file is read, and one behind its end is not. -/
theorem byteOf_of_lt {data : List Byte} {k : Nat} (h : k < data.length) :
    byteOf data k = .ok data[k] := by
  unfold byteOf
  rw [List.getElem?_eq_getElem h]

theorem byteOf_of_le {data : List Byte} {k : Nat} (h : data.length ≤ k) :
    byteOf data k = .error .undefined := by
  unfold byteOf
  rw [List.getElem?_eq_none h]

theorem exists_readU16 {data : List Byte} {k : Nat} (h : k + 1 < data.length) :
    ∃ v, readU16 data k = .ok v := by
  unfold readU16
  rw [throwIf_eq_ok.mpr (Nat.not_le.mpr h), byteOf_of_lt (by omega), byteOf_of_lt h]
  exact ⟨_, rfl⟩

theorem exists_readU32 {data : List Byte} {k : Nat} (h : k + 3 < data.length) :
    ∃ v, readU32 data k = .ok v := by
  unfold readU32
  rw [throwIf_eq_ok.mpr (Nat.not_le.mpr h), byteOf_of_lt (by omega), byteOf_of_lt (by omega),
    byteOf_of_lt (by omega), byteOf_of_lt h]
  exact ⟨_, rfl⟩

/-- The loop over the ROM, when the file is long enough for it. -/
theorem mapM_byteOf_of_le {data : List Byte} {k n : Nat} (h : k + n ≤ data.length) :
    (List.range n).mapM (fun i => byteOf data (k + i)) = .ok ((data.drop k).take n) := by
  have hread : ∀ i ∈ List.range n, byteOf data (k + i) = .ok (data[k + i]?.getD 0) := by
    intro i hi
    have hlt : k + i < data.length := by
      have := List.mem_range.mp hi
      omega
    rw [byteOf_of_lt hlt, List.getElem?_eq_getElem hlt, Option.getD_some]
  rw [mapM_eq_ok_of hread]
  congr 1
  apply List.ext_getElem
  · rw [List.length_map, List.length_range, List.length_take, List.length_drop]
    omega
  · intro i h₁ h₂
    have hi : i < n := by
      rw [List.length_map, List.length_range] at h₁
      exact h₁
    rw [List.getElem_map, List.getElem_range, List.getElem?_eq_getElem (by omega),
      Option.getD_some, List.getElem_take, List.getElem_drop]

/-- The loop over the ROM reads past the end of a file that is too short for it. -/
theorem mapM_byteOf_of_lt {data : List Byte} {k n : Nat} (hn : 0 < n)
    (h : data.length < k + n) :
    (List.range n).mapM (fun i => byteOf data (k + i)) = .error .undefined := by
  -- the first place behind the end, or the first place of all when the loop starts there
  cases hm : (List.range n).mapM (fun i => byteOf data (k + i)) with
  | ok bs =>
      have hmem : data.length - k ∈ List.range n := List.mem_range.mpr (by omega)
      rcases exists_of_mapM_eq_ok hm hmem with ⟨b, hb⟩
      rw [byteOf_of_le (by omega)] at hb
      cases hb
  | error e =>
      rcases mapM_eq_error hm with ⟨i, -, he⟩
      by_cases hlt : k + i < data.length
      · rw [byteOf_of_lt hlt] at he
        cases he
      · rw [byteOf_of_le (Nat.not_lt.mp hlt)] at he
        rw [← Except.error.inj he]

/-- A file that passes the checks of the header: its magic is right and its size fields are those
of a header. -/
structure HasHeader (data : List Byte) (headerSize : Word) (romSize : BitVec 32) : Prop where
  length : kCartridgeHeaderSize ≤ data.length
  magic : data.take 4 = [0x49, 0x52, 0x54, 0x41]
  readsHeaderSize : readU16 data 6 = .ok headerSize
  readsRomSize : readU32 data 10 = .ok romSize
  large : kCartridgeHeaderSize ≤ headerSize.toNat

/-- What the loader does behind the checks of the header. -/
theorem loadCartridge_of_hasHeader {data : List Byte} {headerSize : Word} {romSize : BitVec 32}
    (h : HasHeader data headerSize romSize) :
    ∃ version entry, loadCartridge data = (do
      throwIf (data.length < (headerSize.setWidth 32 + romSize).toNat) CartridgeError.fileTruncated
      let rom ← (List.range romSize.toNat).mapM fun i => byteOf data (headerSize.toNat + i)
      pure ⟨{ version := version, headerSize := headerSize, entry := entry,
              romSize := romSize }, rom⟩) := by
  have hlength : 32 ≤ data.length := h.length
  rcases exists_readU16 (show 4 + 1 < data.length by omega) with ⟨version, hversion⟩
  rcases exists_readU16 (show 8 + 1 < data.length by omega) with ⟨entry, hentry⟩
  have hbytes : ∀ (k : Nat) (b : Byte), (data.take 4)[k]? = some b → byteOf data k = .ok b := by
    intro k b hb
    rw [List.getElem?_take] at hb
    unfold byteOf
    split at hb
    · rw [hb]
    · cases hb
  refine ⟨version, entry, ?_⟩
  unfold loadCartridge
  rw [throwIf_eq_ok.mpr (show ¬data.length = 0 by omega),
    throwIf_eq_ok.mpr (Nat.not_lt.mpr h.length), hbytes 0 _ (by rw [h.magic]; rfl),
    hbytes 1 _ (by rw [h.magic]; rfl), hbytes 2 _ (by rw [h.magic]; rfl),
    hbytes 3 _ (by rw [h.magic]; rfl), hversion, h.readsHeaderSize, hentry, h.readsRomSize]
  show (throwIf (headerSize.toNat < kCartridgeHeaderSize) _ >>= fun _ => _) = _
  rw [throwIf_eq_ok.mpr (Nat.not_lt.mpr h.large)]
  rfl

/-- A file that fails a check of the header is refused for it. -/
theorem hasHeader_of_loadCartridge {data : List Byte} {r : Except CartridgeError LoadedCartridge}
    (h : loadCartridge data = r) :
    (∃ headerSize romSize, HasHeader data headerSize romSize) ∨
      ∃ e, r = .error e ∧ e ≠ .undefined := by
  by_cases hlength : kCartridgeHeaderSize ≤ data.length
  · have hlong : 32 ≤ data.length := hlength
    rcases exists_readU16 (show 4 + 1 < data.length by omega) with ⟨version, hversion⟩
    rcases exists_readU16 (show 6 + 1 < data.length by omega) with ⟨headerSize, hheader⟩
    rcases exists_readU16 (show 8 + 1 < data.length by omega) with ⟨entry, hentry⟩
    rcases exists_readU32 (show 10 + 3 < data.length by omega) with ⟨romSize, hsize⟩
    have htake : data.take 4 = [data[0], data[1], data[2], data[3]] := by
      match data, hlong with
      | _ :: _ :: _ :: _ :: _, _ => rfl
    unfold loadCartridge at h
    rw [throwIf_eq_ok.mpr (show ¬data.length = 0 by omega),
      throwIf_eq_ok.mpr (Nat.not_lt.mpr hlength), byteOf_of_lt (show 0 < data.length by omega),
      byteOf_of_lt (show 1 < data.length by omega), byteOf_of_lt (show 2 < data.length by omega),
      byteOf_of_lt (show 3 < data.length by omega), hversion, hheader, hentry, hsize] at h
    -- the fields can be read; the magic and the header's size are checked in this order
    by_cases hmagic : (#v[data[0], data[1], data[2], data[3]] : Vector Byte 4) =
        cartridgeMagic
    · have hlist : data.take 4 = [0x49, 0x52, 0x54, 0x41] :=
        htake.trans (congrArg Vector.toList hmagic)
      by_cases hlarge : kCartridgeHeaderSize ≤ headerSize.toNat
      · exact .inl ⟨headerSize, romSize, hlength, hlist, hheader, hsize, hlarge⟩
      · right
        refine ⟨.headerSizeTooSmall, ?_, by decide⟩
        rw [← h]
        show (throwIf ((#v[data[0], data[1], data[2], data[3]] : Vector Byte 4) ≠
          cartridgeMagic) _ >>= fun _ => throwIf (headerSize.toNat < _) _ >>= _) = _
        rw [throwIf_eq_ok.mpr (not_not.mpr hmagic)]
        show (throwIf (headerSize.toNat < kCartridgeHeaderSize) _ >>= _) = _
        unfold throwIf
        rw [if_pos (Nat.not_le.mp hlarge)]
        rfl
    · right
      refine ⟨.magicMismatch, ?_, by decide⟩
      rw [← h]
      show (throwIf ((#v[data[0], data[1], data[2], data[3]] : Vector Byte 4) ≠
        cartridgeMagic) _ >>= _) = _
      unfold throwIf
      rw [if_pos hmagic]
      rfl
  · right
    unfold loadCartridge throwIf at h
    by_cases hempty : data.length = 0
    · rw [if_pos hempty] at h
      exact ⟨.empty, h.symm, by decide⟩
    · rw [if_neg hempty] at h
      have hshort : (if data.length < kCartridgeHeaderSize then
          Except.error CartridgeError.headerTooSmall else .ok ()) =
          .error CartridgeError.headerTooSmall := if_pos (Nat.not_le.mp hlength)
      refine ⟨.headerTooSmall, ?_, by decide⟩
      rw [← h]
      show (if data.length < kCartridgeHeaderSize then
        Except.error CartridgeError.headerTooSmall else .ok ()) >>= _ = _
      rw [hshort]
      rfl

/-- The loader reads only bytes of the file, and what it accepts is the ROM behind the header. -/
def StaysInside (data : List Byte) : Prop :=
  loadCartridge data ≠ .error .undefined ∧
    ∀ cartridge, loadCartridge data = .ok cartridge →
      cartridge.rom.length = cartridge.header.romSize.toNat ∧
      cartridge.rom = (data.drop cartridge.header.headerSize.toNat).take
        cartridge.header.romSize.toNat

/-- The size of the header and of the ROM exceed the file, and their sum of 32 bits does not. -/
def SumWraps (data : List Byte) : Prop :=
  ∃ headerSize romSize, HasHeader data headerSize romSize ∧
    data.length < headerSize.toNat + romSize.toNat ∧
    (headerSize.toNat + romSize.toNat) % 2 ^ 32 ≤ data.length

theorem toNat_sum (headerSize : Word) (romSize : BitVec 32) :
    (headerSize.setWidth 32 + romSize).toNat = (headerSize.toNat + romSize.toNat) % 2 ^ 32 := by
  have hlt : headerSize.toNat < 2 ^ 16 := headerSize.isLt
  rw [BitVec.toNat_add, BitVec.toNat_setWidth,
    Nat.mod_eq_of_lt (show headerSize.toNat < 2 ^ 32 by omega)]

/-- Where the sum wraps around, the loader reads past the end of the file. -/
theorem not_staysInside_of_sumWraps {data : List Byte} (h : SumWraps data) :
    ¬StaysInside data := by
  rcases h with ⟨headerSize, romSize, hheader, hshort, hsum⟩
  rcases loadCartridge_of_hasHeader hheader with ⟨version, entry, hload⟩
  intro hinside
  apply hinside.1
  -- with an empty ROM the sum is the size of the header, which does not wrap
  have hpositive : 0 < romSize.toNat := by
    have hsize := headerSize.isLt
    omega
  rw [hload, toNat_sum, throwIf_eq_ok.mpr (Nat.not_lt.mpr hsum)]
  show ((List.range romSize.toNat).mapM (fun i => byteOf data (headerSize.toNat + i)) >>= _) = _
  rw [mapM_byteOf_of_lt hpositive hshort]
  rfl

/-- The loader stays inside the file just when the sum of the two sizes does not wrap around. -/
theorem staysInside_iff (data : List Byte) : StaysInside data ↔ ¬SumWraps data := by
  constructor
  · exact fun hinside hwraps => not_staysInside_of_sumWraps hwraps hinside
  · intro hwraps
    rcases hasHeader_of_loadCartridge (rfl : loadCartridge data = _) with
      ⟨headerSize, romSize, hheader⟩ | ⟨e, he, hne⟩
    · rcases loadCartridge_of_hasHeader hheader with ⟨version, entry, hload⟩
      by_cases hsum : data.length < (headerSize.setWidth 32 + romSize).toNat
      · -- the sum is larger than the file, and the file is refused
        have herror : loadCartridge data = .error .fileTruncated := by
          rw [hload]
          unfold throwIf
          rw [if_pos hsum]
          rfl
        have hne : CartridgeError.fileTruncated ≠ .undefined := by decide
        refine ⟨fun h => hne (Except.error.inj (herror.symm.trans h)), fun c hc => ?_⟩
        rw [herror] at hc
        cases hc
      · -- the sum does not wrap and is within the file, so every byte of the ROM is
        have hlong : headerSize.toNat + romSize.toNat ≤ data.length := by
          rw [toNat_sum] at hsum
          by_contra hshort
          exact hwraps ⟨headerSize, romSize, hheader, Nat.not_le.mp hshort, Nat.not_lt.mp hsum⟩
        rw [throwIf_eq_ok.mpr hsum] at hload
        have hok : loadCartridge data = .ok
            ⟨{ version := version, headerSize := headerSize, entry := entry, romSize := romSize },
              (data.drop headerSize.toNat).take romSize.toNat⟩ := by
          rw [hload]
          show ((List.range romSize.toNat).mapM
            (fun i => byteOf data (headerSize.toNat + i)) >>= _) = _
          rw [mapM_byteOf_of_le hlong]
          rfl
        refine ⟨by rw [hok]; exact fun h => (by cases h), fun c hc => ?_⟩
        rw [hok] at hc
        cases hc
        refine ⟨?_, rfl⟩
        show ((data.drop headerSize.toNat).take romSize.toNat).length = romSize.toNat
        rw [List.length_take, List.length_drop]
        omega
    · refine ⟨by rw [he]; exact fun h => hne (Except.error.inj h), fun c hc => ?_⟩
      rw [he] at hc
      cases hc

/-- A header whose sizes add up to 2 ^ 32. -/
def wrappingFile : List Byte :=
  [0x49, 0x52, 0x54, 0x41, 1, 0, 32, 0, 0x00, 0x80, 0xE0, 0xFF, 0xFF, 0xFF] ++
    List.replicate 18 0

theorem not_staysInside_wrappingFile : ¬StaysInside wrappingFile := by
  apply not_staysInside_of_sumWraps
  refine ⟨32, 0xFFFFFFE0, ⟨by decide, rfl, rfl, rfl, by decide⟩, by decide, by decide⟩

end Irata2.Sim
