import Irata2.Assembler.DebugJson
import Irata2.Sim.HexWord
import Irata2.Sim.JsonText

/-!
# Sidecars round-trip

The simulator's loader reads, from the JSON text that the assembler prints, what the assembler was
given: the parser undoes the printer's quoting, its hexadecimal addresses and its lists.
-/

namespace Irata2.Sim

open Library JsonParser

/-! ## Quoted texts -/

theorem parseStringBody_escape {esc ch : Char} (hu : esc ≠ 'u') (h : unescape esc = some ch)
    (rest out : Text) :
    parseStringBody ('\\' :: esc :: rest) out = parseStringBody rest (out ++ [ch]) := by
  conv_lhs => unfold parseStringBody
  rw [if_neg (by decide), if_pos rfl]
  simp only [if_neg hu, h]

theorem parseStringBody_unicode {a b c d ch : Char} (h : parseUnicodeEscape [a, b, c, d] = .ok ch)
    (rest out : Text) :
    parseStringBody ('\\' :: 'u' :: a :: b :: c :: d :: rest) out =
      parseStringBody rest (out ++ [ch]) := by
  conv_lhs => unfold parseStringBody
  rw [if_neg (by decide), if_pos rfl]
  simp only [if_true, h, Except.bind]

theorem parseStringBody_plain {ch : Char} (hq : ch ≠ '"') (hb : ch ≠ '\\') (rest out : Text) :
    parseStringBody (ch :: rest) out = parseStringBody rest (out ++ [ch]) := by
  conv_lhs => unfold parseStringBody
  rw [if_neg hq, if_neg hb]

/-- The four digits of a control character stand for it. -/
theorem parseUnicodeEscape_control {n : Nat} (hn : n < 0x20) :
    ∃ a b c d, List.leftpad 4 '0' (Nat.toDigits 16 n) = [a, b, c, d] ∧
      parseUnicodeEscape [a, b, c, d] = .ok (Char.ofNat n) := by
  interval_cases n <;> exact ⟨_, _, _, _, rfl, rfl⟩

theorem readsBody_escapeChar (ch : Char) : ReadsBody (Assembler.escapeChar ch) [ch] := by
  intro out rest
  unfold Assembler.escapeChar
  by_cases hq : ch = '"'
  · rw [if_pos hq, hq]
    exact parseStringBody_escape (by decide) rfl rest out
  rw [if_neg hq]
  by_cases hb : ch = '\\'
  · rw [if_pos hb, hb]
    exact parseStringBody_escape (by decide) rfl rest out
  rw [if_neg hb]
  by_cases hn : ch = '\n'
  · rw [if_pos hn, hn]
    exact parseStringBody_escape (by decide) rfl rest out
  rw [if_neg hn]
  by_cases hr : ch = '\r'
  · rw [if_pos hr, hr]
    exact parseStringBody_escape (by decide) rfl rest out
  rw [if_neg hr]
  by_cases ht : ch = '\t'
  · rw [if_pos ht, ht]
    exact parseStringBody_escape (by decide) rfl rest out
  rw [if_neg ht]
  by_cases hc : ch.toNat < 0x20
  · rw [if_pos hc]
    rcases parseUnicodeEscape_control hc with ⟨a, b, c, d, hpad, hparse⟩
    rw [hpad]
    rw [Char.ofNat_toNat] at hparse
    exact parseStringBody_unicode hparse rest out
  · rw [if_neg hc]
    exact parseStringBody_plain hq hb rest out

theorem readsBody_escapeJson (value : Text) : ReadsBody (Assembler.escapeJson value) value := by
  induction value with
  | nil => exact .nil
  | cons ch value ih => exact (readsBody_escapeChar ch).append ih

theorem quote_eq (value : Text) :
    Assembler.quote value = '"' :: Assembler.escapeJson value ++ ['"'] := rfl

theorem reads_quote (value : Text) : Reads (Assembler.quote value) (.string value) :=
  reads_string (readsBody_escapeJson value)

theorem blank_space : Blank [' '] := by
  intro ch hch
  exact .inl (List.mem_singleton.mp hch)

theorem blank_newline : Blank ['\n'] := by
  intro ch hch
  exact .inr (.inr (.inl (List.mem_singleton.mp hch)))

theorem blank_append {v w : Text} (hv : Blank v) (hw : Blank w) : Blank (v ++ w) := by
  intro ch hch
  rcases List.mem_append.mp hch with h | h
  · exact hv ch h
  · exact hw ch h

theorem blank_replicate (n : Nat) : Blank (List.replicate n ' ') := by
  intro ch hch
  exact .inl (List.eq_of_mem_replicate hch)

/-- A member as the printer writes it: a quoted name, a colon, a space and a value. -/
theorem readsMember_quote (key : Text) {text : Text} {v : JsonValue} (h : Reads text v) :
    ReadsMember (Assembler.quote key ++ (':' :: ' ' :: text)) key v := by
  have hmember := readsMember (readsBody_escapeJson key) (h.blank blank_space)
  rw [quote_eq, List.append_assoc]
  exact hmember

/-- A member whose name needs no escape. -/
theorem readsMember_name {key : Text} (hkey : Assembler.escapeJson key = key) {text : Text}
    {v : JsonValue} (h : Reads text v) :
    ReadsMember ('"' :: key ++ ('"' :: ':' :: ' ' :: text)) key v := by
  have hmember := readsMember_quote key h
  rw [quote_eq, hkey, List.append_assoc] at hmember
  exact hmember

/-! ## Addresses -/

/-- An address as the printer writes it. -/
def hexText (w : Word) : Text := '0' :: 'x' :: Nat.toDigits 16 w.toNat

theorem digit_of_mem {n : Nat} {ch : Char} (h : ch ∈ Nat.toDigits 16 n) :
    ∃ d < 16, ch = d.digitChar ∧ Digits.digit ch = some d := by
  rcases Digits.exists_digit_of_mem (by decide) h with ⟨d, hd, rfl⟩
  exact ⟨d, hd, rfl, Digits.digit_digitChar hd⟩

theorem digitChar_plain {d : Nat} (hd : d < 16) :
    d.digitChar ≠ '"' ∧ d.digitChar ≠ '\\' := by
  interval_cases d <;> decide

theorem readsBody_plain {text : Text} (h : ∀ ch ∈ text, ch ≠ '"' ∧ ch ≠ '\\') :
    ReadsBody text text := by
  induction text with
  | nil => exact .nil
  | cons ch text ih =>
      have hch := h ch List.mem_cons_self
      have hfirst : ReadsBody [ch] [ch] :=
        fun out rest => parseStringBody_plain hch.1 hch.2 rest out
      exact hfirst.append (ih fun c hc => h c (List.mem_cons_of_mem _ hc))

theorem readsBody_hexText (w : Word) : ReadsBody (hexText w) (hexText w) := by
  apply readsBody_plain
  intro ch hch
  rcases List.mem_cons.mp hch with rfl | hch
  · decide
  · rcases List.mem_cons.mp hch with rfl | hch
    · decide
    · rcases digit_of_mem hch with ⟨d, hd, rfl, -⟩
      exact digitChar_plain hd

theorem reads_quoteHex (w : Word) : Reads (Assembler.quoteHex w) (.string (hexText w)) :=
  reads_string (readsBody_hexText w)

theorem hexWord_hexText (w : Word) : HexWord (hexText w) w := by
  refine ⟨Nat.toDigits 16 w.toNat, rfl, Nat.toDigits_ne_nil, ?_,
    Digits.value_toDigits (by decide) (by decide) _⟩
  intro ch hch
  rcases digit_of_mem hch with ⟨d, -, -, hsome⟩
  rw [hsome]
  rfl

theorem parseHexWord_hexText (w : Word) (label : String) :
    parseHexWord (hexText w) label = .ok w := by
  rw [parseHexWord_eq_ok]
  exact readHex_of_hexWord (hexWord_hexText w)

theorem hexText_injective {v w : Word} (h : hexText v = hexText w) : v = w := by
  have hv := parseHexWord_hexText v ""
  rw [h, parseHexWord_hexText w ""] at hv
  exact (Except.ok.inj hv).symm

/-! ## Lists -/

section Separated

variable {α : Type} {item : α → Text} {v w newline : Text}

/-- A printed list of members, up to the closing brace behind it. -/
theorem members_separated {key : α → Text} {value : α → JsonValue} (hv : Blank v)
    (hnewline : Blank newline) (hw : Blank w) (x : α) (xs : List α)
    (h : ∀ y ∈ x :: xs, ReadsMember (item y) (key y) (value y)) :
    Members (Assembler.separated (',' :: v) newline item (x :: xs) ++ (w ++ ['}']))
      ((x :: xs).map fun y => (key y, value y)) := by
  induction xs generalizing x with
  | nil =>
      have hlast := Members.last (h x List.mem_cons_self) (blank_append hnewline hw)
      rw [List.append_assoc] at hlast
      show Members ((item x ++ newline) ++ (w ++ ['}'])) [(key x, value x)]
      rw [List.append_assoc]
      exact hlast
  | cons y ys ih =>
      have hmore := ih y fun z hz => h z (List.mem_cons_of_mem _ hz)
      have hall := Members.cons (h x List.mem_cons_self) ((hmore.blank hnewline).blank hv)
      show Members ((item x ++ (',' :: v) ++ newline ++
        Assembler.separated (',' :: v) newline item (y :: ys)) ++ (w ++ ['}'])) _
      simp only [List.append_assoc, List.cons_append] at hall ⊢
      exact hall

theorem elements_separated {value : α → JsonValue} (hv : Blank v) (hnewline : Blank newline)
    (hw : Blank w) (x : α) (xs : List α) (h : ∀ y ∈ x :: xs, Reads (item y) (value y)) :
    Elements (Assembler.separated (',' :: v) newline item (x :: xs) ++ (w ++ [']']))
      ((x :: xs).map value) := by
  induction xs generalizing x with
  | nil =>
      have hlast := Elements.last (h x List.mem_cons_self) (blank_append hnewline hw)
      rw [List.append_assoc] at hlast
      show Elements ((item x ++ newline) ++ (w ++ [']'])) [value x]
      rw [List.append_assoc]
      exact hlast
  | cons y ys ih =>
      have hmore := ih y fun z hz => h z (List.mem_cons_of_mem _ hz)
      have hall := Elements.cons (h x List.mem_cons_self) ((hmore.blank hnewline).blank hv)
      show Elements ((item x ++ (',' :: v) ++ newline ++
        Assembler.separated (',' :: v) newline item (y :: ys)) ++ (w ++ [']'])) _
      simp only [List.append_assoc, List.cons_append] at hall ⊢
      exact hall

/-- A printed object, whether or not it has members. -/
theorem reads_members {key : α → Text} {value : α → JsonValue} (u : Text) (hu : Blank u)
    (hv : Blank v) (hnewline : Blank newline) (hw : Blank w) (xs : List α)
    (h : ∀ y ∈ xs, ReadsMember (item y) (key y) (value y)) :
    Reads ('{' :: (u ++ (Assembler.separated (',' :: v) newline item xs ++ (w ++ ['}']))))
      (.object (OrderedMap.emplaceAll OrderedMap.textBefore []
        (xs.map fun y => (key y, value y)))) := by
  cases xs with
  | nil =>
      have hnil := reads_object_nil (blank_append hu hw)
      rw [List.append_assoc] at hnil
      exact hnil
  | cons x xs => exact reads_object ((members_separated hv hnewline hw x xs h).blank hu)

theorem reads_elements {value : α → JsonValue} (u : Text) (hu : Blank u) (hv : Blank v)
    (hnewline : Blank newline) (hw : Blank w) (xs : List α)
    (h : ∀ y ∈ xs, Reads (item y) (value y)) :
    Reads ('[' :: (u ++ (Assembler.separated (',' :: v) newline item xs ++ (w ++ [']']))))
      (.array (xs.map value)) := by
  cases xs with
  | nil =>
      have hnil := reads_array_nil (blank_append hu hw)
      rw [List.append_assoc] at hnil
      exact hnil
  | cons x xs => exact reads_array ((elements_separated hv hnewline hw x xs h).blank hu)

end Separated

/-- A member in front of others: white space, its name, its value, a comma and white space. -/
theorem members_name (u key w : Text) (hu : Blank u) (hw : Blank w)
    (hkey : Assembler.escapeJson key = key) {text more : Text} {v : JsonValue}
    {members : List (Text × JsonValue)} (h : Reads text v) (hmore : Members more members) :
    Members ((u ++ ('"' :: key ++ ['"', ':', ' '])) ++ (text ++ ((',' :: w) ++ more)))
      ((key, v) :: members) := by
  have hall := Members.cons ((readsMember_name hkey h).blank hu) (hmore.blank hw)
  simp only [List.append_assoc, List.cons_append, List.nil_append] at hall ⊢
  exact hall

theorem members_lastName (u key w : Text) (hu : Blank u) (hw : Blank w)
    (hkey : Assembler.escapeJson key = key) {text : Text} {v : JsonValue} (h : Reads text v) :
    Members ((u ++ ('"' :: key ++ ['"', ':', ' '])) ++ (text ++ (w ++ ['}']))) [(key, v)] := by
  have hall := Members.last ((readsMember_name hkey h).blank hu) hw
  simp only [List.append_assoc, List.cons_append, List.nil_append] at hall ⊢
  exact hall

/-! ## Records -/

theorem blank_nil : Blank [] := fun _ h => (by cases h)

theorem reads_decimal {n : BitVec 32} (hn : 1 ≤ n.toInt) :
    Reads (Assembler.decimal n) (.number n.toInt) := by
  have hlt : n.toInt < 2 ^ 31 := BitVec.toInt_lt
  have habs : (n.toInt.natAbs : Int) = n.toInt := Int.natAbs_of_nonneg (by omega)
  have hnumber := reads_number (n := n.toInt.natAbs) (by omega)
  rw [habs] at hnumber
  unfold Assembler.decimal
  rw [if_neg (by omega)]
  exact hnumber

/-- The members of a place in the source. -/
def locationMembers (record : Assembler.DebugRecord) : List (Text × JsonValue) :=
  [("file".toList, .string record.file), ("line".toList, .number record.line.toInt),
    ("column".toList, .number record.column.toInt), ("text".toList, .string record.text)]

theorem members_location {record : Assembler.DebugRecord} (hline : 1 ≤ record.line.toInt)
    (hcolumn : 1 ≤ record.column.toInt) :
    Members (Assembler.encodeLocation record ++ ['}']) (locationMembers record) := by
  unfold Assembler.encodeLocation
  simp only [List.append_assoc]
  apply members_name [] "file".toList [' '] blank_nil blank_space rfl (reads_quote _)
  apply members_name [] "line".toList [' '] blank_nil blank_space rfl (reads_decimal hline)
  apply members_name [] "column".toList [' '] blank_nil blank_space rfl (reads_decimal hcolumn)
  exact members_lastName [] "text".toList [] blank_nil blank_nil rfl (reads_quote _)

def recordMembers (record : Assembler.DebugRecord) : List (Text × JsonValue) :=
  ("address".toList, .string (hexText record.address)) ::
    ("rom_offset".toList, .number record.romOffset.toNat) :: locationMembers record

/-- The object of a list of members, as the parser builds it. -/
def objectOf (members : List (Text × JsonValue)) : JsonValue :=
  .object (OrderedMap.emplaceAll OrderedMap.textBefore [] members)

theorem reads_record {record : Assembler.DebugRecord} (hline : 1 ≤ record.line.toInt)
    (hcolumn : 1 ≤ record.column.toInt) :
    Reads (Assembler.encodeRecord record) (objectOf (recordMembers record)) := by
  have hlt : record.romOffset.toNat < 2 ^ 32 := record.romOffset.isLt
  have h := members_name [] "address".toList [' '] blank_nil blank_space rfl
    (reads_quoteHex record.address)
    (members_name [] "rom_offset".toList [' '] blank_nil blank_space rfl
      (reads_number (show record.romOffset.toNat < 2 ^ 63 by omega))
      (members_location hline hcolumn))
  have hall := (reads_object h).blank (blank_replicate 4)
  unfold Assembler.encodeRecord
  simp only [List.append_assoc]
  exact hall

/-- A member whose name is an address. -/
theorem readsMember_quoteHex (w : Word) {text : Text} {v : JsonValue} (h : Reads text v) :
    ReadsMember (Assembler.quoteHex w ++ (':' :: ' ' :: text)) (hexText w) v := by
  have hmember := readsMember (readsBody_hexText w) (h.blank blank_space)
  have hquote : Assembler.quoteHex w = '"' :: hexText w ++ ['"'] := rfl
  rw [hquote, List.append_assoc]
  exact hmember

theorem readsMember_pcEntry {entry : Word × Assembler.DebugRecord}
    (hline : 1 ≤ entry.2.line.toInt) (hcolumn : 1 ≤ entry.2.column.toInt) :
    ReadsMember (Assembler.encodePcEntry entry) (hexText entry.1)
      (objectOf (locationMembers entry.2)) := by
  have h := readsMember_quoteHex entry.1 (reads_object (members_location hline hcolumn))
  unfold Assembler.encodePcEntry
  simp only [List.append_assoc]
  exact h.blank (blank_replicate 4)

theorem readsMember_symbol (symbol : Text × Word) :
    ReadsMember (Assembler.encodeSymbol symbol) symbol.1 (.string (hexText symbol.2)) := by
  have h := readsMember_quote symbol.1 (reads_quoteHex symbol.2)
  unfold Assembler.encodeSymbol
  simp only [List.append_assoc]
  exact h.blank (blank_replicate 4)

/-! ## The document -/

def symbolMembers (symbols : List (Text × Word)) : List (Text × JsonValue) :=
  (Assembler.sortedSymbols symbols).map fun symbol => (symbol.1, .string (hexText symbol.2))

def pcMembers (records : List Assembler.DebugRecord) : List (Text × JsonValue) :=
  (Assembler.pcEntries records).map fun entry =>
    (hexText entry.1, objectOf (locationMembers entry.2))

/-- The members of a sidecar. -/
def sidecarMembers (header : Assembler.CartridgeHeader) (schemaVersion sourceRoot : Text)
    (sourceFiles : List Text) (symbols : List (Text × Word))
    (records : List Assembler.DebugRecord) : List (Text × JsonValue) :=
  [("version".toList, .string schemaVersion),
    ("cartridge_version".toList, .number header.version.toNat),
    ("entry".toList, .string (hexText header.entry)),
    ("rom_size".toList, .number header.romSize.toNat),
    ("source_root".toList, .string sourceRoot),
    ("source_files".toList, .array (sourceFiles.map .string)),
    ("symbols".toList, objectOf (symbolMembers symbols)),
    ("pc_to_source".toList, objectOf (pcMembers records)),
    ("records".toList, .array (records.map fun record => objectOf (recordMembers record)))]

theorem reads_symbols (symbols : List (Text × Word)) :
    Reads ('{' :: ((if (Assembler.sortedSymbols symbols).isEmpty then []
        else "\n".toList ++ Assembler.separated ",".toList "\n".toList Assembler.encodeSymbol
          (Assembler.sortedSymbols symbols) ++ "  ".toList) ++ ['}']))
      (objectOf (symbolMembers symbols)) := by
  unfold symbolMembers
  cases Assembler.sortedSymbols symbols with
  | nil => exact reads_object_nil blank_nil
  | cons symbol sorted =>
      have h := reads_members ['\n'] blank_newline blank_nil blank_newline (blank_replicate 2)
        (symbol :: sorted) fun y _ => readsMember_symbol y
      rw [List.isEmpty_cons, if_neg Bool.false_ne_true]
      simp only [List.append_assoc] at h ⊢
      exact h

set_option maxRecDepth 4096 in
/-- The parser reads a printed sidecar back. -/
theorem parse_encodeDebugJson (header : Assembler.CartridgeHeader) (schemaVersion sourceRoot : Text)
    (sourceFiles : List Text) (symbols : List (Text × Word))
    {records : List Assembler.DebugRecord}
    (hplace : ∀ r ∈ records, 1 ≤ r.line.toInt ∧ 1 ≤ r.column.toInt) :
    parse (Assembler.encodeDebugJson header schemaVersion sourceRoot sourceFiles symbols records) =
      .ok (objectOf (sidecarMembers header schemaVersion sourceRoot sourceFiles symbols
        records)) := by
  have hversion : header.version.toNat < 2 ^ 16 := header.version.isLt
  have hsize : header.romSize.toNat < 2 ^ 32 := header.romSize.isLt
  have hentries : ∀ e ∈ Assembler.pcEntries records,
      1 ≤ e.2.line.toInt ∧ 1 ≤ e.2.column.toInt := by
    intro e he
    rcases List.mem_map.mp (OrderedMap.mem_of_mem_emplaceAll _ he) with ⟨r, hr, rfl⟩
    exact hplace r hr
  have hfiles := reads_elements [] blank_nil blank_space blank_nil blank_nil sourceFiles
    fun y _ => reads_quote y
  have hpcs := reads_members ['\n'] blank_newline blank_nil blank_newline (blank_replicate 2)
    (Assembler.pcEntries records)
    fun y hy => readsMember_pcEntry (hentries y hy).1 (hentries y hy).2
  have hrecords := reads_elements ['\n'] blank_newline blank_nil blank_newline (blank_replicate 2)
    records fun y hy => reads_record (hplace y hy).1 (hplace y hy).2
  have hmembers := members_name [' ', ' '] "version".toList ['\n'] (blank_replicate 2)
    blank_newline rfl (reads_quote schemaVersion)
    (members_name [' ', ' '] "cartridge_version".toList ['\n'] (blank_replicate 2)
      blank_newline rfl (reads_number (show header.version.toNat < 2 ^ 63 by omega))
    (members_name [' ', ' '] "entry".toList ['\n'] (blank_replicate 2)
      blank_newline rfl (reads_quoteHex header.entry)
    (members_name [' ', ' '] "rom_size".toList ['\n'] (blank_replicate 2)
      blank_newline rfl (reads_number (show header.romSize.toNat < 2 ^ 63 by omega))
    (members_name [' ', ' '] "source_root".toList ['\n'] (blank_replicate 2)
      blank_newline rfl (reads_quote sourceRoot)
    (members_name [' ', ' '] "source_files".toList ['\n'] (blank_replicate 2)
      blank_newline rfl hfiles
    (members_name [' ', ' '] "symbols".toList ['\n'] (blank_replicate 2)
      blank_newline rfl (reads_symbols symbols)
    (members_name [' ', ' '] "pc_to_source".toList ['\n'] (blank_replicate 2)
      blank_newline rfl hpcs
    (members_lastName [' ', ' '] "records".toList ['\n'] (blank_replicate 2)
      blank_newline rfl hrecords))))))))
  have hparse := parse_of_reads ((reads_object (hmembers.blank blank_newline))) blank_newline
  unfold Assembler.encodeDebugJson
  simp only [List.append_assoc, List.cons_append, List.nil_append] at hparse ⊢
  exact hparse

/-! ## Loading -/

theorem requireField_objectOf {members : List (Text × JsonValue)} {key : String} {v : JsonValue}
    (h : OrderedMap.find members key.toList = some v) :
    requireField (objectOf members) key = .ok v := by
  have hlookup : OrderedMap.find (OrderedMap.emplaceAll OrderedMap.textBefore [] members)
      key.toList = some v := by
    rw [OrderedMap.find_emplaceAll, h]
  unfold requireField objectOf
  simp only [requireObject, bind, Except.bind, hlookup]
  rfl

def locationOf (record : Assembler.DebugRecord) : SourceLocation :=
  ⟨record.file, record.line, record.column, record.text⟩

def recordOf (record : Assembler.DebugRecord) : DebugRecord :=
  ⟨record.address, record.romOffset, locationOf record⟩

theorem loadLocation_objectOf {members : List (Text × JsonValue)} {record : Assembler.DebugRecord}
    (hline : 1 ≤ record.line.toInt) (hcolumn : 1 ≤ record.column.toInt)
    (h : ∀ member ∈ locationMembers record, OrderedMap.find members member.1 = some member.2)
    (owner : String) : loadLocation owner (objectOf members) = .ok (locationOf record) := by
  have hfield : ∀ (key : String) (v : JsonValue), (key.toList, v) ∈ locationMembers record →
      requireField (objectOf members) key = .ok v :=
    fun key v hv => requireField_objectOf (h _ hv)
  have hfile := hfield "file" (.string record.file) List.mem_cons_self
  have hl := hfield "line" (.number record.line.toInt) (List.mem_cons_of_mem _ List.mem_cons_self)
  have hc := hfield "column" (.number record.column.toInt)
    (List.mem_cons_of_mem _ (List.mem_cons_of_mem _ List.mem_cons_self))
  have ht := hfield "text" (.string record.text)
    (List.mem_cons_of_mem _ (List.mem_cons_of_mem _ (List.mem_cons_of_mem _ List.mem_cons_self)))
  have hcheck : ∀ e : LoadError, throwIf (record.line.toInt < 1 ∨ record.column.toInt < 1) e =
      .ok () := fun e => throwIf_eq_ok.mpr (by omega)
  unfold loadLocation
  simp only [hfile, hl, hc, ht, requireString, requireNumber, bind, Except.bind,
    BitVec.ofInt_toInt, hcheck]
  rfl

theorem loadRecord_objectOf {record : Assembler.DebugRecord} {romSize : BitVec 32}
    (hline : 1 ≤ record.line.toInt) (hcolumn : 1 ≤ record.column.toInt)
    (hoffset : record.romOffset.toNat < romSize.toNat) :
    loadRecord romSize (objectOf (recordMembers record)) = .ok (recordOf record) := by
  have haddress : requireField (objectOf (recordMembers record)) "address" =
      .ok (.string (hexText record.address)) := requireField_objectOf rfl
  have hromOffset : requireField (objectOf (recordMembers record)) "rom_offset" =
      .ok (.number record.romOffset.toNat) := requireField_objectOf rfl
  have hlocation : loadLocation "record" (objectOf (recordMembers record)) =
      .ok (locationOf record) := by
    apply loadLocation_objectOf hline hcolumn
    intro member hmember
    rcases List.mem_cons.mp hmember with rfl | hmember
    · rfl
    rcases List.mem_cons.mp hmember with rfl | hmember
    · rfl
    rcases List.mem_cons.mp hmember with rfl | hmember
    · rfl
    · rw [List.mem_singleton.mp hmember]
      rfl
  have hcheck : ∀ e : LoadError, throwIf ((record.romOffset.toNat : Int) < 0 ∨
      (record.romOffset.toNat : Int) ≥ (romSize.toNat : Int)) e = .ok () :=
    fun e => throwIf_eq_ok.mpr (by omega)
  have hcast : BitVec.ofInt 32 (record.romOffset.toNat : Int) = record.romOffset := by
    rw [BitVec.ofInt_natCast, BitVec.ofNat_toNat, BitVec.setWidth_eq]
  unfold loadRecord
  simp only [haddress, hromOffset, hlocation, hcheck, hcast, requireString, requireNumber,
    parseHexWord_hexText, bind, Except.bind]
  rfl

/-- The map of symbols that the loader builds. -/
theorem exists_symbols (symbols : List (Text × Word)) :
    ∃ loaded : List (Text × Word),
      (OrderedMap.emplaceAll OrderedMap.textBefore [] (symbolMembers symbols)).foldlM loadSymbol []
        = .ok loaded ∧ ∀ name, OrderedMap.find loaded name = OrderedMap.find symbols name := by
  let t : List (Text × Word) := OrderedMap.emplaceAll
    (fun a b => OrderedMap.textBefore (id a) (id b)) [] (Assembler.sortedSymbols symbols)
  have hmap : OrderedMap.emplaceAll OrderedMap.textBefore [] (symbolMembers symbols) =
      t.map fun e => (e.1, JsonValue.string (hexText e.2)) :=
    OrderedMap.emplaceAll_map OrderedMap.textBefore (fun w => JsonValue.string (hexText w))
      Function.injective_id [] (Assembler.sortedSymbols symbols)
  have hnodup : (t.map Prod.fst).Nodup := OrderedMap.nodup_emplaceAll _ (t := []) List.nodup_nil _
  refine ⟨t, ?_, fun name => ?_⟩
  · rw [hmap, List.foldlM_map]
    rw [Table.foldlM_append (g := fun e => e)]
    · rw [List.map_id', List.nil_append]
    · intro acc e _ hnone
      have hfind : OrderedMap.find acc e.1 = none := hnone
      unfold loadSymbol
      simp only [requireString, parseHexWord_hexText, hfind, bind, Except.bind]
      rfl
    · rw [List.map_id']
      exact hnodup
    · exact fun _ _ => rfl
  · show OrderedMap.find (OrderedMap.emplaceAll _ [] (OrderedMap.emplaceAll _ [] symbols)) name = _
    rw [OrderedMap.find_emplaceAll, OrderedMap.find_emplaceAll]

/-- The first record of an address. -/
theorem lookup_pcEntries (records : List Assembler.DebugRecord) (address : Word) :
    OrderedMap.find (Assembler.pcEntries records) address =
      records.find? fun record => record.address = address := by
  unfold Assembler.pcEntries
  rw [OrderedMap.find_emplaceAll]
  unfold OrderedMap.find
  induction records with
  | nil => rfl
  | cons record records ih =>
      by_cases h : record.address = address
      · subst h
        have hfind : (record :: records).find? (fun r => r.address = record.address) =
            some record := List.find?_cons_of_pos (decide_eq_true rfl)
        rw [hfind]
        exact Table.lookup_cons_self _ (record.address, record)
      · rw [List.find?_cons_of_neg (by simpa using h), ← ih]
        exact Table.lookup_cons_ne fun heq => h heq.symm

/-- The map from addresses to lines that the loader builds. -/
theorem exists_pcToSource {records : List Assembler.DebugRecord}
    (hplace : ∀ r ∈ records, 1 ≤ r.line.toInt ∧ 1 ≤ r.column.toInt) :
    ∃ loaded : List (Word × SourceLocation),
      (OrderedMap.emplaceAll OrderedMap.textBefore [] (pcMembers records)).foldlM loadPcEntry []
        = .ok loaded ∧
      ∀ address, OrderedMap.find loaded address =
        (records.find? fun record => record.address = address).map locationOf := by
  let t : List (Word × Assembler.DebugRecord) := OrderedMap.emplaceAll
    (fun a b => OrderedMap.textBefore (hexText a) (hexText b)) [] (Assembler.pcEntries records)
  -- the table of texts is the table of addresses, spelled out
  have hmap : OrderedMap.emplaceAll OrderedMap.textBefore [] (pcMembers records) =
      t.map fun e => (hexText e.1, objectOf (locationMembers e.2)) :=
    OrderedMap.emplaceAll_map OrderedMap.textBefore (fun r => objectOf (locationMembers r))
      (fun _ _ h => hexText_injective h) [] (Assembler.pcEntries records)
  have hnodup : (t.map Prod.fst).Nodup := OrderedMap.nodup_emplaceAll _ (t := []) List.nodup_nil _
  have hentries : ∀ e ∈ t, 1 ≤ e.2.line.toInt ∧ 1 ≤ e.2.column.toInt := by
    intro e he
    have hmem := OrderedMap.mem_of_mem_emplaceAll _ (OrderedMap.mem_of_mem_emplaceAll _ he)
    rcases List.mem_map.mp hmem with ⟨r, hr, rfl⟩
    exact hplace r hr
  refine ⟨t.map fun e => (e.1, locationOf e.2), ?_, fun address => ?_⟩
  · rw [hmap, List.foldlM_map]
    rw [Table.foldlM_append (g := fun e => (e.1, locationOf e.2))]
    · rfl
    · intro acc e he hnone
      have hlocation : loadLocation "pc_to_source" (objectOf (locationMembers e.2)) =
          .ok (locationOf e.2) := by
        apply loadLocation_objectOf (hentries e he).1 (hentries e he).2
        intro member hmember
        rcases List.mem_cons.mp hmember with rfl | hmember
        · rfl
        rcases List.mem_cons.mp hmember with rfl | hmember
        · rfl
        rcases List.mem_cons.mp hmember with rfl | hmember
        · rfl
        · rw [List.mem_singleton.mp hmember]
          rfl
      have hfind : OrderedMap.find acc e.1 = none := hnone
      unfold loadPcEntry
      simp only [hlocation, parseHexWord_hexText, hfind, bind, Except.bind]
      rfl
    · rw [List.map_map]
      exact hnodup
    · exact fun _ _ => rfl
  · have hlookup := OrderedMap.lookup_map_key locationOf Function.injective_id t address
    -- of two records of an address the first one is kept by both
    rw [← lookup_pcEntries]
    have ht : OrderedMap.find t address = OrderedMap.find (Assembler.pcEntries records) address :=
      OrderedMap.find_emplaceAll _ _ address
    rw [← ht]
    exact hlookup

/-- What the loader returns when every field is there and passes its checks. -/
theorem loadDebugSymbols_of {content version sourceRoot : Text} {root files : JsonValue}
    {obj symbolEntries pcEntries : List (Text × JsonValue)} {recordValues : List JsonValue}
    {entry : Word} {n : Int} {romSize cartridgeVersion : BitVec 32} {sourceFiles : List Text}
    {symbols : List (Text × Word)} {pcToSource : List (Word × SourceLocation)}
    {records : List DebugRecord} (hparse : parse content = .ok root)
    (hobj : requireObject root = .ok obj)
    (hversion : requireField root "version" = .ok (.string version))
    (hentry : requireField root "entry" = .ok (.string (hexText entry)))
    (hsize : requireField root "rom_size" = .ok (.number n))
    (hcheck : ∀ e : LoadError, throwIf (n ≤ 0) e = .ok ()) (hcast : BitVec.ofInt 32 n = romSize)
    (hcartridge : loadCartridgeVersion obj = .ok cartridgeVersion)
    (hroot : requireField root "source_root" = .ok (.string sourceRoot))
    (hfiles : requireField root "source_files" = .ok files)
    (hstrings : parseStringArray files "source_files" = .ok sourceFiles)
    (hsymbols : requireField root "symbols" = .ok (.object symbolEntries))
    (hsymbolLoop : symbolEntries.foldlM loadSymbol [] = .ok symbols)
    (hpcs : requireField root "pc_to_source" = .ok (.object pcEntries))
    (hpcLoop : pcEntries.foldlM loadPcEntry [] = .ok pcToSource)
    (hrecords : requireField root "records" = .ok (.array recordValues))
    (hrecordLoop : recordValues.mapM (loadRecord romSize) = .ok records) :
    loadDebugSymbols content = .ok ⟨version, entry, romSize, cartridgeVersion, sourceRoot,
      sourceFiles, symbols, pcToSource, records⟩ := by
  have hobject : ∀ members, requireObject (.object members) = .ok members := fun _ => rfl
  unfold loadDebugSymbols
  simp only [bind, Except.bind, hparse, hobj, hversion, hentry, hsize, hcheck, hcast, hcartridge,
    hroot, hfiles, hstrings, hsymbols, hsymbolLoop, hpcs, hpcLoop, hrecords, hrecordLoop,
    requireString, requireNumber, requireArray, hobject, parseHexWord_hexText]
  rfl

/-- The loader reads back, from a sidecar that the assembler has printed, everything that was
printed; the source line of an address is that of its first record. -/
theorem loadDebugSymbols_encodeDebugJson (header : Assembler.CartridgeHeader)
    (schemaVersion sourceRoot : Text) (sourceFiles : List Text) (symbols : List (Text × Word))
    (records : List Assembler.DebugRecord) (hromSize : 0 < header.romSize.toNat)
    (hplace : ∀ r ∈ records, 1 ≤ r.line.toInt ∧ 1 ≤ r.column.toInt)
    (hoffset : ∀ r ∈ records, r.romOffset.toNat < header.romSize.toNat) :
    ∃ loaded, loadDebugSymbols (Assembler.encodeDebugJson header schemaVersion sourceRoot
        sourceFiles symbols records) = .ok loaded ∧
      loaded.version = schemaVersion ∧ loaded.entry = header.entry ∧
      loaded.romSize = header.romSize ∧
      loaded.cartridgeVersion = header.version.setWidth 32 ∧
      loaded.sourceRoot = sourceRoot ∧ loaded.sourceFiles = sourceFiles ∧
      (∀ name, OrderedMap.find loaded.symbols name = OrderedMap.find symbols name) ∧
      loaded.records = records.map recordOf ∧
      ∀ address, loaded.lookup address =
        (records.find? fun record => record.address = address).map locationOf := by
  rcases exists_symbols symbols with ⟨s, hs, hsymbols⟩
  rcases exists_pcToSource hplace with ⟨pcs, hpcs, hpcToSource⟩
  refine ⟨⟨schemaVersion, header.entry, header.romSize, header.version.setWidth 32, sourceRoot,
    sourceFiles, s, pcs, records.map recordOf⟩, ?_, rfl, rfl, rfl, rfl, rfl, rfl, hsymbols, rfl,
    hpcToSource⟩
  -- the members are found behind one another, whatever the order of the map
  have hfield : ∀ (key : String) (v : JsonValue),
      OrderedMap.find (sidecarMembers header schemaVersion sourceRoot sourceFiles symbols records)
        key.toList = some v →
      requireField (objectOf (sidecarMembers header schemaVersion sourceRoot sourceFiles symbols
        records)) key = .ok v := fun key v h => requireField_objectOf h
  have hversion := hfield "version" _ rfl
  have hentry := hfield "entry" _ rfl
  have hsize := hfield "rom_size" _ rfl
  have hroot := hfield "source_root" _ rfl
  have hfiles := hfield "source_files" _ rfl
  have hsymbolsField := hfield "symbols" _ rfl
  have hpcsField := hfield "pc_to_source" _ rfl
  have hrecordsField := hfield "records" _ rfl
  -- the version of the cartridge is optional for the loader, and always written
  have hcartridge : loadCartridgeVersion (OrderedMap.emplaceAll OrderedMap.textBefore []
      (sidecarMembers header schemaVersion sourceRoot sourceFiles symbols records)) =
      .ok (header.version.setWidth 32) := by
    have hlookup : OrderedMap.find (OrderedMap.emplaceAll OrderedMap.textBefore []
        (sidecarMembers header schemaVersion sourceRoot sourceFiles symbols records))
        "cartridge_version".toList = some (.number header.version.toNat) := by
      rw [OrderedMap.find_emplaceAll]
      rfl
    have hcast : BitVec.ofInt 32 (header.version.toNat : Int) = header.version.setWidth 32 := by
      rw [BitVec.ofInt_natCast, BitVec.ofNat_toNat]
    unfold loadCartridgeVersion
    simp only [hlookup, throwIf_eq_ok.mpr (show ¬(header.version.toNat : Int) < 0 by omega), hcast]
    rfl
  have hstrings : parseStringArray (.array (sourceFiles.map .string)) "source_files" =
      .ok sourceFiles := by
    have hall : (sourceFiles.map JsonValue.string).mapM
        (fun item => requireString item "source_files") = .ok sourceFiles := by
      rw [List.mapM_map]
      have hid := mapM_eq_ok_of (f := fun file => requireString (.string file) "source_files")
        (g := id) (l := sourceFiles) fun _ _ => rfl
      rw [List.map_id] at hid
      exact hid
    exact hall
  -- the checks of a record are those that its place and its offset pass
  have hloaded : (records.map fun record => objectOf (recordMembers record)).mapM
      (loadRecord header.romSize) = .ok (records.map recordOf) := by
    rw [List.mapM_map]
    exact mapM_eq_ok_of fun r hr =>
      loadRecord_objectOf (hplace r hr).1 (hplace r hr).2 (hoffset r hr)
  have hcheck : ∀ e : LoadError, throwIf ((header.romSize.toNat : Int) ≤ 0) e = .ok () :=
    fun e => throwIf_eq_ok.mpr (by omega)
  have hromSizeCast : BitVec.ofInt 32 (header.romSize.toNat : Int) = header.romSize := by
    rw [BitVec.ofInt_natCast, BitVec.ofNat_toNat, BitVec.setWidth_eq]
  exact loadDebugSymbols_of
    (parse_encodeDebugJson header schemaVersion sourceRoot sourceFiles symbols hplace) rfl
    hversion hentry hsize hcheck hromSizeCast hcartridge hroot hfiles hstrings hsymbolsField hs
    hpcsField hpcs hrecordsField hloaded

/-- Two records of one address. -/
def twoRecords : List Assembler.DebugRecord :=
  [{ address := 0x8000, file := "a".toList }, { address := 0x8000, line := 2 }]

theorem loadDebugSymbols_encodeDebugJson_two :
    ∃ loaded, loadDebugSymbols (Assembler.encodeDebugJson { romSize := 2 } "1".toList []
        ["a".toList] [("start".toList, 0x8000)] twoRecords) = .ok loaded ∧
      loaded.version = "1".toList ∧ loaded.entry = 0x8000 ∧ loaded.romSize = 2 ∧
      loaded.cartridgeVersion = (1 : Word).setWidth 32 ∧ loaded.sourceRoot = [] ∧
      loaded.sourceFiles = ["a".toList] ∧
      (∀ name, OrderedMap.find loaded.symbols name =
        OrderedMap.find [("start".toList, (0x8000 : Word))] name) ∧
      loaded.records = twoRecords.map recordOf ∧
      ∀ address, loaded.lookup address =
        (twoRecords.find? fun record => record.address = address).map locationOf :=
  loadDebugSymbols_encodeDebugJson { romSize := 2 } "1".toList [] ["a".toList]
    [("start".toList, 0x8000)] twoRecords (by decide) (by decide) (by decide)

end Irata2.Sim
