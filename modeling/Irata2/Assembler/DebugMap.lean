import Irata2.Assembler.Layout

/-!
# The debug map of a program

Which statement the debug sidecar names for an address, and which statement's byte the ROM has
there.  The sidecar keeps the first record of an address, and the ROM the last byte.
-/

namespace Irata2.Assembler

open Library

/-! ## Statements and their places -/

def Statement.span : Statement → Span
  | .label decl => decl.span
  | .equ decl => decl.span
  | .instruction stmt => stmt.span
  | .directive stmt => stmt.span

def Statement.text : Statement → Text
  | .instruction stmt => formatInstructionText stmt
  | .directive stmt => formatDirectiveText stmt
  | _ => []

/-- How the sidecar names a statement. -/
structure Place where
  file : Text
  line : BitVec 32
  column : BitVec 32
  text : Text
  deriving DecidableEq, Repr

def DebugRecord.place (record : DebugRecord) : Place :=
  ⟨record.file, record.line, record.column, record.text⟩

/-- Every statement with the value of the cursor in front of it. -/
def located : Nat → List Statement → List (Nat × Statement)
  | _, [] => []
  | cursor, stmt :: rest => (cursor, stmt) :: located (stmt.next cursor % 2 ^ 32) rest

/-- A statement writes its bytes from its address on. -/
def WritesAt (w : Word) (p : Nat × Statement) : Prop :=
  p.1 ≤ w.toNat ∧ w.toNat < p.1 + p.2.size

/-- A statement is recorded for the addresses of its bytes, which are words. -/
def RecordedAt (w : Word) (p : Nat × Statement) : Prop := w ∈ addressesOf p

instance (w : Word) (p : Nat × Statement) : Decidable (RecordedAt w p) :=
  inferInstanceAs (Decidable (w ∈ addressesOf p))

theorem recordedAt_of_writesAt {w : Word} {p : Nat × Statement} (h : WritesAt w p) :
    RecordedAt w p := by
  rcases h with ⟨hle, hlt⟩
  have hword : BitVec.ofNat 16 (p.1 + (w.toNat - p.1)) = w := by
    rw [Nat.add_sub_cancel' hle]
    exact BitVec.ofNat_toNat 16 w |>.trans (BitVec.setWidth_eq w)
  unfold RecordedAt addressesOf
  rw [← hword]
  exact List.mem_map_of_mem (List.mem_range.mpr (by omega))

/-! ## The first pass -/

theorem ranged_of_advances {pass pass' : FirstPassResult} {stmt : Statement}
    (h : Advances pass stmt pass') : Ranged (pass.cursor, stmt) where
  address hsome := (h.placed (h.positive hsome)).1
  silent := h.silent

/-- The items of a program are those of its statements, each at the cursor in front of it. -/
theorem items_of_located {options : AssemblerOptions} {statements : List Statement}
    {pass pass' : FirstPassResult} (hcursor : pass.cursor < 2 ^ 32)
    (h : statements.foldlM (FirstPassResult.add options) pass = .ok pass') :
    pass'.items = pass.items ++
        (located pass.cursor statements).filterMap (fun p => p.2.item? p.1) ∧
      ∀ p ∈ located pass.cursor statements, Ranged p := by
  induction statements generalizing pass with
  | nil =>
      cases h
      exact ⟨(List.append_nil _).symm, fun p hp => (by cases hp)⟩
  | cons stmt rest ih =>
      rcases foldlM_cons_eq_ok.mp h with ⟨mid, hmid, hrest⟩
      have hadvances := advances_add hcursor hmid
      have hmidCursor : mid.cursor < 2 ^ 32 := by
        rw [hadvances.cursor]
        exact Nat.mod_lt _ (by decide)
      rcases ih hmidCursor hrest with ⟨hitems, hranged⟩
      have hlocated : located pass.cursor (stmt :: rest) =
          (pass.cursor, stmt) :: located mid.cursor rest := by
        rw [hadvances.cursor]
        rfl
      rw [hlocated, hitems, hadvances.items, List.append_assoc, filterMap_cons_eq]
      refine ⟨rfl, fun p hp => ?_⟩
      rcases List.mem_cons.mp hp with rfl | hp
      · exact ranged_of_advances hadvances
      · exact hranged p hp

section Encode

variable {Path : Type} (host : Host Path) (sourceFile : Text) (options : AssemblerOptions)
  (pass : FirstPassResult)

def placeOf (stmt : Statement) : Place :=
  { file := host.relativeToRoot sourceFile stmt.span.file
    line := BitVec.ofNat 32 stmt.span.line
    column := BitVec.ofNat 32 stmt.span.column
    text := stmt.text }

/-- The record of the byte that stands `i` bytes behind the first of a statement. -/
def recordAt (p : Nat × Statement) (i : Nat) : DebugRecord :=
  { address := BitVec.ofNat 16 (p.1 + i)
    romOffset := BitVec.ofNat 32 (p.1 - options.origin.toNat + i)
    file := host.relativeToRoot sourceFile p.2.span.file
    line := BitVec.ofNat 32 p.2.span.line
    column := BitVec.ofNat 32 p.2.span.column
    text := p.2.text }

/-- The records of a statement, one for each byte. -/
def recordsOf (p : Nat × Statement) : List DebugRecord :=
  (List.range p.2.size).map (recordAt host sourceFile options p)

/-! ## The second pass -/

theorem records_addRecord (encoding : Encoding) (span : Span) (address : Word) (offset : Nat)
    (text : Text) :
    (encoding.addRecord host sourceFile span address offset text).records = encoding.records ++
      [{ address, romOffset := BitVec.ofNat 32 offset,
         file := host.relativeToRoot sourceFile span.file, line := BitVec.ofNat 32 span.line,
         column := BitVec.ofNat 32 span.column, text }] := by
  unfold Encoding.addRecord Encoding.trackSourceFile
  simp only
  split
  · rfl
  · rfl

/-- The item of a statement, as far as its records go. -/
structure ItemOf (p : Nat × Statement) (item : Emittable) : Prop where
  address : item.address.toNat = p.1
  span : item.span = p.2.span
  text : item.text = p.2.text

theorem itemOf_of_item? {p : Nat × Statement} {item : Emittable} (hp : p.1 ≤ 0xFFFF)
    (h : p.2.item? p.1 = some item) : ItemOf p item := by
  have haddress : (BitVec.ofNat 16 p.1).toNat = p.1 := by
    rw [BitVec.toNat_ofNat]
    exact Nat.mod_eq_of_lt (by omega)
  rcases p with ⟨a, stmt⟩
  cases stmt with
  | label decl => cases h
  | equ decl => cases h
  | directive stmt =>
      by_cases htype : stmt.type = .byte
      · simp only [Statement.item?, if_pos htype] at h
        cases h
        exact ⟨haddress, rfl, rfl⟩
      · simp only [Statement.item?, if_neg htype] at h
        cases h
  | instruction stmt =>
      cases hinfo : selectInstruction stmt with
      | error e =>
          simp only [Statement.item?, hinfo] at h
          cases h
      | ok info =>
          simp only [Statement.item?, hinfo] at h
          cases h
          exact ⟨haddress, rfl, rfl⟩

theorem records_write {p : Nat × Statement} {item : Emittable} (hitem : ItemOf p item)
    (encoding : Encoding) (i : Nat) (b : Byte) :
    (encoding.write host sourceFile options item i b).records =
      encoding.records ++ [recordAt host sourceFile options p i] := by
  unfold Encoding.write
  rw [records_addRecord, hitem.address, hitem.span, hitem.text]
  rfl

/-- The loop over the operands of a byte directive records every byte. -/
theorem records_addBytes {p : Nat × Statement} {item : Emittable} (hitem : ItemOf p item)
    {operands : List Operand} {i : Nat} {encoding encoding' : Encoding}
    (hsize : encoding.rom.length < 2 ^ 32)
    (hk : p.1 - options.origin.toNat + i ≤ encoding.rom.length)
    (h : Encoding.addBytes host sourceFile options pass item encoding i operands =
      .ok encoding') :
    encoding'.records = encoding.records ++
      (List.range' i operands.length).map (recordAt host sourceFile options p) := by
  induction operands generalizing i encoding with
  | nil =>
      cases h
      exact (List.append_nil _).symm
  | cons operand operands ih =>
      have htarget : (p.1 - options.origin.toNat + i % 2 ^ 32) % 2 ^ 32 =
          p.1 - options.origin.toNat + i := by
        rw [Nat.mod_eq_of_lt (show i < 2 ^ 32 by omega)]
        exact Nat.mod_eq_of_lt (by omega)
      unfold Encoding.addBytes at h
      simp only [hitem.address, htarget] at h
      rw [seq_eq_ok, throwIf_eq_ok, bind_eq_ok] at h
      rcases h with ⟨hlt, b, -, h⟩
      have hlength : (encoding.store (p.1 - options.origin.toNat + i) b).rom.length =
          encoding.rom.length := List.length_set
      have hmore := ih (by rw [rom_addRecord, hlength]; exact hsize)
        (by rw [rom_addRecord, hlength]; omega) h
      rw [hmore, records_addRecord, List.length_cons, List.range'_succ, List.append_assoc,
        hitem.span, hitem.text]
      rfl

theorem records_addInstruction {p : Nat × Statement} {item : Emittable} (hitem : ItemOf p item)
    {encoding encoding' : Encoding}
    (h : encoding.addInstruction host sourceFile options pass item = .ok encoding') :
    encoding'.records = encoding.records ++
      (List.range (1 + item.operandBytes)).map (recordAt host sourceFile options p) := by
  have hwrite := records_write host sourceFile options hitem
  unfold Encoding.addInstruction at h
  simp only at h
  split at h
  · rename_i hone
    split at h
    · cases h
    · -- the byte itself is not in the record
      have hfinish : ∀ x : Except AssemblerError Byte, (x >>= fun value => do
          throwIf (item.address.toNat - options.origin.toNat + 1 ≥
              (encoding.write host sourceFile options item 0 item.opcode).rom.length)
            (⟨item.span, "address exceeds cartridge size"⟩ : AssemblerError)
          pure ((encoding.write host sourceFile options item 0 item.opcode).write host sourceFile
            options item 1 value)) = .ok encoding' →
          encoding'.records = encoding.records ++
            (List.range (1 + item.operandBytes)).map (recordAt host sourceFile options p) := by
        intro x hx
        rcases bind_eq_ok.mp hx with ⟨value, -, hx⟩
        cases (seq_eq_ok.mp hx).2
        rw [hwrite, hwrite, hone, List.append_assoc]
        rfl
      split at h
      · exact hfinish _ h
      · exact hfinish _ h
  · split at h
    · rename_i htwo
      split at h
      · cases h
      · rcases bind_eq_ok.mp h with ⟨value, -, h⟩
        cases (seq_eq_ok.mp h).2
        rw [hwrite, hwrite, hwrite, htwo, List.append_assoc, List.append_assoc]
        rfl
    · split at h
      · cases h
      · rename_i hzero
        cases h
        rw [hwrite, not_not.mp hzero]
        rfl

/-- A statement is recorded once for each of its bytes. -/
theorem records_add {p : Nat × Statement} {item : Emittable} {encoding encoding' : Encoding}
    (hp : p.1 ≤ 0xFFFF) (hitem : p.2.item? p.1 = some item)
    (hsize : encoding.rom.length < 2 ^ 32)
    (h : encoding.add host sourceFile options pass item = .ok encoding') :
    encoding'.records = encoding.records ++ recordsOf host sourceFile options p := by
  have hof := itemOf_of_item? hp hitem
  unfold Encoding.add at h
  rw [seq_eq_ok, throwIf_eq_ok, seq_eq_ok, throwIf_eq_ok, hof.address] at h
  rcases h with ⟨-, hfits, h⟩
  rcases p with ⟨a, stmt⟩
  unfold recordsOf
  cases stmt with
  | label decl => cases hitem
  | equ decl => cases hitem
  | directive stmt =>
      by_cases htype : stmt.type = .byte
      · simp only [Statement.item?, if_pos htype] at hitem
        cases hitem
        have hlength : Statement.size (.directive stmt) = stmt.operands.length := if_pos htype
        rw [hlength, List.range_eq_range']
        exact records_addBytes host sourceFile options pass hof hsize
          (Nat.le_of_lt (Nat.not_le.mp hfits)) h
      · simp only [Statement.item?, if_neg htype] at hitem
        cases hitem
  | instruction stmt =>
      cases hinfo : selectInstruction stmt with
      | error e =>
          simp only [Statement.item?, hinfo] at hitem
          cases hitem
      | ok info =>
          simp only [Statement.item?, hinfo] at hitem
          cases hitem
          have hlength : Statement.size (.instruction stmt) = 1 + info.addressingMode.operands := by
            unfold Statement.size
            simp only [hinfo]
          rw [hlength]
          exact records_addInstruction host sourceFile options pass hof h

theorem records_foldlM {statements : List (Nat × Statement)} {encoding encoding' : Encoding}
    (hrange : ∀ p ∈ statements, Ranged p) (hsize : encoding.rom.length < 2 ^ 32)
    (h : (statements.filterMap fun p => p.2.item? p.1).foldlM
      (Encoding.add host sourceFile options pass) encoding = .ok encoding') :
    encoding'.records = encoding.records ++
      statements.flatMap (recordsOf host sourceFile options) := by
  induction statements generalizing encoding with
  | nil =>
      cases h
      exact (List.append_nil _).symm
  | cons p rest ih =>
      have hp := hrange p List.mem_cons_self
      have hrest := fun q hq => hrange q (List.mem_cons_of_mem _ hq)
      rw [filterMap_cons_eq] at h
      rw [List.flatMap_cons]
      cases hitem : p.2.item? p.1 with
      | none =>
          rw [hitem, Option.toList_none, List.nil_append] at h
          have hnone : recordsOf host sourceFile options p = [] := by
            unfold recordsOf
            rw [(hp.silent hitem).1]
            rfl
          rw [hnone]
          exact ih hrest hsize h
      | some item =>
          rw [hitem, Option.toList_some, List.singleton_append] at h
          rcases foldlM_cons_eq_ok.mp h with ⟨mid, hmid, hmore⟩
          have haddress := hp.address (by rw [hitem]; rfl)
          rcases writes_add pass host sourceFile options hitem haddress hsize hmid with
            ⟨-, bytes, -, hwrites⟩
          rw [ih hrest (by rw [hwrites.length]; exact hsize) hmore,
            records_add host sourceFile options pass haddress hitem hsize hmid, List.append_assoc]

/-! ## The entry of an address -/

theorem keys_recordsOf (p : Nat × Statement) :
    ((recordsOf host sourceFile options p).map fun record => (record.address, record)).map
      Prod.fst = addressesOf p := by
  unfold recordsOf addressesOf
  rw [List.map_map, List.map_map]
  rfl

theorem find_recordsOf_eq_none {w : Word} {p : Nat × Statement} (h : ¬RecordedAt w p) :
    OrderedMap.find ((recordsOf host sourceFile options p).map
      fun record => (record.address, record)) w = none := by
  unfold OrderedMap.find
  rw [Table.lookup_eq_none_iff_notMem, keys_recordsOf]
  exact h

theorem find_recordsOf {w : Word} {p : Nat × Statement} (h : RecordedAt w p) :
    ∃ record, OrderedMap.find ((recordsOf host sourceFile options p).map
        fun record => (record.address, record)) w = some record ∧
      record.place = placeOf host sourceFile p.2 := by
  cases hfind : OrderedMap.find ((recordsOf host sourceFile options p).map
      fun record => (record.address, record)) w with
  | none =>
      unfold OrderedMap.find at hfind
      rw [Table.lookup_eq_none_iff_notMem, keys_recordsOf] at hfind
      exact absurd h hfind
  | some record =>
      refine ⟨record, rfl, ?_⟩
      rcases List.mem_map.mp (Table.mem_of_lookup hfind) with ⟨r, hr, heq⟩
      rcases List.mem_map.mp hr with ⟨i, -, rfl⟩
      rw [← (Prod.mk.inj heq).2]
      rfl

/-- The entry of an address names the first statement that is recorded for it. -/
theorem find_of_isFirst {w : Word} {statements : List (Nat × Statement)} {p : Nat × Statement}
    (h : IsFirst (RecordedAt w) statements p) :
    ∃ record, OrderedMap.find (pcEntries
        (statements.flatMap (recordsOf host sourceFile options))) w = some record ∧
      record.place = placeOf host sourceFile p.2 := by
  rcases h with ⟨hp, front, back, rfl, hfront⟩
  rcases find_recordsOf host sourceFile options hp with ⟨record, hrecord, hplace⟩
  refine ⟨record, ?_, hplace⟩
  unfold pcEntries
  rw [OrderedMap.find_emplaceAll, List.flatMap_append, List.map_append, OrderedMap.find_append,
    List.flatMap_cons, List.map_append, OrderedMap.find_append, hrecord]
  have hnone : OrderedMap.find ((front.flatMap (recordsOf host sourceFile options)).map
      fun record => (record.address, record)) w = none := by
    induction front with
    | nil => rfl
    | cons q front ih =>
        rw [List.flatMap_cons, List.map_append, OrderedMap.find_append,
          find_recordsOf_eq_none host sourceFile options (hfront q List.mem_cons_self)]
        exact ih fun r hr => hfront r (List.mem_cons_of_mem _ hr)
  rw [hnone]
  rfl

theorem exists_of_find {w : Word} {statements : List (Nat × Statement)} {record : DebugRecord}
    (h : OrderedMap.find (pcEntries
      (statements.flatMap (recordsOf host sourceFile options))) w = some record) :
    ∃ p, IsFirst (RecordedAt w) statements p ∧ record.place = placeOf host sourceFile p.2 := by
  have hsome := h
  unfold pcEntries at h
  rw [OrderedMap.find_emplaceAll] at h
  rcases List.mem_map.mp (Table.mem_of_lookup h) with ⟨r, hr, heq⟩
  rcases List.mem_flatMap.mp hr with ⟨p, hp, hrp⟩
  have hrecorded : RecordedAt w p := by
    unfold RecordedAt
    rw [← keys_recordsOf host sourceFile options]
    exact List.mem_map.mpr ⟨_, List.mem_map_of_mem hrp, (Prod.mk.inj heq).1⟩
  rcases exists_isFirst hp hrecorded with ⟨q, hq⟩
  rcases find_of_isFirst host sourceFile options hq with ⟨record', hrecord', hplace⟩
  rw [hsome] at hrecord'
  cases hrecord'
  exact ⟨q, hq, hplace⟩

/-! ## The map and the ROM -/

/-- An address of the cartridge. -/
def RomAddress (w : Word) : Prop :=
  options.origin.toNat ≤ w.toNat ∧ w.toNat < options.origin.toNat + options.romSize.toNat

/-- What the debug map names for an address is the statement whose byte the ROM has there, and every
address that a statement writes has an entry. -/
structure Describes (statements : List (Nat × Statement)) (records : List DebugRecord)
    (rom : List Byte) : Prop where
  entry : ∀ w record, RomAddress options w →
    OrderedMap.find (pcEntries records) w = some record →
    ∃ p bytes, IsLast (WritesAt w) statements p ∧ record.place = placeOf host sourceFile p.2 ∧
      Encodes pass.value p.1 p.2 bytes ∧
      rom[w.toNat - options.origin.toNat]? = bytes[w.toNat - p.1]?
  covered : ∀ w p, p ∈ statements → WritesAt w p →
    (OrderedMap.find (pcEntries records) w).isSome

/-- At every address, the first statement that is recorded for it and the last one that writes it
stand at the same place of the sources. -/
def FirstIsLast (statements : List (Nat × Statement)) : Prop :=
  ∀ w p, RomAddress options w → IsFirst (RecordedAt w) statements p →
    ∃ q, IsLast (WritesAt w) statements q ∧
      placeOf host sourceFile p.2 = placeOf host sourceFile q.2

/-- A write covers a place just when its statement writes the address. -/
theorem covers_iff {p : Nat × Statement} {v : Nat × List Byte} {w : Word}
    (hencodes : Encodes pass.value p.1 p.2 v.2)
    (hplace : v.2 = [] ∨ options.origin.toNat ≤ p.1 ∧ v.1 = p.1 - options.origin.toNat)
    (hw : options.origin.toNat ≤ w.toNat) :
    Covers v (w.toNat - options.origin.toNat) ↔ WritesAt w p := by
  have hlength := hencodes.length
  unfold Covers WritesAt
  rcases hplace with hnil | ⟨horigin, hv⟩
  · rw [hnil] at hlength ⊢
    rw [List.length_nil] at hlength ⊢
    omega
  · rw [hlength, hv]
    omega

/-- The byte at an address is that of the last statement that writes it. -/
theorem rom_of_isLast {statements : List (Nat × Statement)} {ws : List (Nat × List Byte)}
    {old rom : List Byte} (hws : List.Forall₂ (fun p w => Encodes pass.value p.1 p.2 w.2 ∧
      (w.2 = [] ∨ options.origin.toNat ≤ p.1 ∧ w.1 = p.1 - options.origin.toNat)) statements ws)
    (hall : WritesAll old ws rom) {w : Word} (hw : options.origin.toNat ≤ w.toNat)
    {p : Nat × Statement} (hp : IsLast (WritesAt w) statements p) :
    ∃ bytes, Encodes pass.value p.1 p.2 bytes ∧
      rom[w.toNat - options.origin.toNat]? = bytes[w.toNat - p.1]? := by
  rcases hp with ⟨hwrites, front, back, rfl, hback⟩
  rcases exists_split_of_forall₂ hws with ⟨front', v, back', rfl, ⟨hencodes, hplace⟩, hrest⟩
  have hcovers := (covers_iff options pass hencodes hplace hw).mpr hwrites
  refine ⟨v.2, hencodes, ?_⟩
  rw [hall.getElem?_of_last hcovers]
  · -- the place of the write is that of the statement
    rcases hplace with hnil | ⟨horigin, hv⟩
    · rw [hnil]
      rfl
    · rw [hv]
      congr 1
      have := hwrites.1
      omega
  · intro u hu hcovered
    rcases exists_left_of_forall₂ hrest hu with ⟨q, hq, hencodes', hplace'⟩
    exact hback q hq ((covers_iff options pass hencodes' hplace' hw).mp hcovered)

theorem describes_of_passes {statements : List (Nat × Statement)} {ws : List (Nat × List Byte)}
    {old rom : List Byte} {records : List DebugRecord}
    (hws : List.Forall₂ (fun p w => Encodes pass.value p.1 p.2 w.2 ∧
      (w.2 = [] ∨ options.origin.toNat ≤ p.1 ∧ w.1 = p.1 - options.origin.toNat)) statements ws)
    (hall : WritesAll old ws rom)
    (hrecords : records = statements.flatMap (recordsOf host sourceFile options)) :
    Describes host sourceFile options pass statements records rom ↔
      FirstIsLast host sourceFile options statements := by
  subst hrecords
  constructor
  · intro hdescribes w p hw hfirst
    rcases find_of_isFirst host sourceFile options hfirst with ⟨record, hrecord, hplace⟩
    rcases hdescribes.entry w record hw hrecord with ⟨q, bytes, hlast, hsame, -, -⟩
    exact ⟨q, hlast, hplace.symm.trans hsame⟩
  · intro hagree
    refine ⟨fun w record hw hrecord => ?_, fun w p hp hwrites => ?_⟩
    · rcases exists_of_find host sourceFile options hrecord with ⟨p, hfirst, hplace⟩
      rcases hagree w p hw hfirst with ⟨q, hlast, hsame⟩
      rcases rom_of_isLast options pass hws hall hw.1 hlast with ⟨bytes, hencodes, hbyte⟩
      exact ⟨q, bytes, hlast, hplace.trans hsame, hencodes, hbyte⟩
    · rcases exists_isFirst hp (recordedAt_of_writesAt hwrites) with ⟨q, hq⟩
      rcases find_of_isFirst host sourceFile options hq with ⟨record, hrecord, -⟩
      rw [hrecord]
      rfl

end Encode

/-- The debug map of an accepted program describes its ROM just when, at every address, the first
statement recorded for it and the last one that writes it stand at the same place. -/
theorem describes_iff {Path : Type} [DecidableEq Path] {host : Host Path} {levels : Nat}
    {source filename : Text} {options : AssemblerOptions} {program : Program}
    {result : AssemblerResult}
    (hexpand : expand host levels source filename = some (.ok program))
    (h : assemble host levels source filename options = some (.ok result)) :
    ∃ pass sourceFiles records, firstPass program options = .ok pass ∧
      result.debugJson = encodeDebugJson result.header "v1".toList (host.sourceRoot filename)
        sourceFiles pass.symbols records ∧
      (Describes host filename options pass
          (located options.origin.toNat program.statements) records result.rom ↔
        FirstIsLast host filename options (located options.origin.toNat program.statements)) := by
  rcases assemble_eq_ok h with ⟨program', pass, hexpand', hpass, hencode⟩
  rw [hexpand'] at hexpand
  cases hexpand
  have horigin : options.origin.toNat < 2 ^ 32 := Nat.lt_trans options.origin.isLt (by decide)
  rcases items_of_located horigin hpass with ⟨hitems, hranged⟩
  rw [List.nil_append] at hitems
  unfold encode at hencode
  rw [seq_eq_ok, bind_eq_ok] at hencode
  rcases hencode with ⟨-, encoding, hencoding, hresult⟩
  cases hresult
  rw [hitems] at hencoding
  have hsize : (List.replicate options.romSize.toNat (0xFF : Byte)).length < 2 ^ 32 := by
    rw [List.length_replicate]
    exact options.romSize.isLt
  rcases writesAll_foldlM pass host filename options hranged hsize hencoding with ⟨ws, hws, hall⟩
  have hrecords := records_foldlM host filename options pass hranged hsize hencoding
  rw [List.nil_append] at hrecords
  exact ⟨pass, _, encoding.records, hpass, rfl,
    describes_of_passes host filename options pass hws hall hrecords⟩

theorem describes_forward :
    ∃ pass sourceFiles records, firstPass forwardProgram { romSize := 8 } = .ok pass ∧
      forwardResult.debugJson = encodeDebugJson forwardResult.header "v1".toList
        (flatHost.sourceRoot []) sourceFiles pass.symbols records ∧
      (Describes flatHost [] { romSize := 8 } pass (located 0x8000 forwardProgram.statements)
          records forwardResult.rom ↔
        FirstIsLast flatHost [] { romSize := 8 } (located 0x8000 forwardProgram.statements)) := by
  have hexpand : expand flatHost 1 forwardSource [] = some (.ok forwardProgram) := by
    decide +kernel
  have hassemble : assemble flatHost 1 forwardSource [] { romSize := 8 } =
      some (.ok forwardResult) := by
    decide +kernel
  exact describes_iff hexpand hassemble

/-- An origin directive that moves backwards. -/
def overlapSource : Text := ".byte 1\n.org $8000\n.byte 2\n".toList

def overlapFirst : DirectiveStmt :=
  { type := .byte, operands := [{ number := 1, span := ⟨[], 1, 7, 1⟩ }], span := ⟨[], 1, 1, 5⟩ }

def overlapOrg : DirectiveStmt :=
  { type := .org, operands := [{ number := 0x8000, span := ⟨[], 2, 6, 5⟩ }],
    span := ⟨[], 2, 1, 4⟩ }

def overlapSecond : DirectiveStmt :=
  { type := .byte, operands := [{ number := 2, span := ⟨[], 3, 7, 1⟩ }], span := ⟨[], 3, 1, 5⟩ }

def overlapProgram : Program :=
  { statements := [.directive overlapFirst, .directive overlapOrg, .directive overlapSecond] }

def overlapPass : FirstPassResult :=
  match firstPass overlapProgram { romSize := 8 } with
  | .ok pass => pass
  | .error _ => { maxAddress := 0, cursor := 0 }

def overlapRecords : List DebugRecord :=
  [{ address := 0x8000, file := "unknown.asm".toList, line := 1, column := 1,
     text := ".byte 1".toList },
   { address := 0x8000, file := "unknown.asm".toList, line := 3, column := 1,
     text := ".byte 2".toList }]

def overlapResult : AssemblerResult :=
  { header := { romSize := 8 }
    rom := [2, 0xFF, 0xFF, 0xFF, 0xFF, 0xFF, 0xFF, 0xFF]
    debugJson := encodeDebugJson { romSize := 8 } "v1".toList (flatHost.sourceRoot [])
      ["unknown.asm".toList] [] overlapRecords }

theorem isLast_overlapSecond :
    IsLast (WritesAt 0x8000) (located 0x8000 overlapProgram.statements)
      (0x8000, .directive overlapSecond) := by
  refine ⟨⟨by decide, by decide⟩, [(0x8000, .directive overlapFirst), (0x8001, .directive overlapOrg)],
    [], rfl, fun y hy => (by cases hy)⟩

theorem not_describes_overlap :
    expand flatHost 1 overlapSource [] = some (.ok overlapProgram) ∧
      assemble flatHost 1 overlapSource [] { romSize := 8 } = some (.ok overlapResult) ∧
      ¬Describes flatHost [] { romSize := 8 } overlapPass
        (located 0x8000 overlapProgram.statements) overlapRecords overlapResult.rom := by
  refine ⟨by decide +kernel, by decide +kernel, fun hdescribes => ?_⟩
  have hfirst : OrderedMap.find (pcEntries overlapRecords) 0x8000 = overlapRecords.head? := by
    decide
  rcases hdescribes.entry 0x8000 _ ⟨by decide, by decide⟩ hfirst with
    ⟨p, bytes, hlast, hplace, -, -⟩
  rw [hlast.unique isLast_overlapSecond] at hplace
  -- the map names the first line, and the ROM has the byte of the third
  exact absurd hplace (by decide)

end Irata2.Assembler
