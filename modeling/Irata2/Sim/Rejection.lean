import Irata2.Sim.HexWord
import Irata2.Sim.JsonOutcome

/-!
# Rejected sidecars

Which texts the loader of debug symbols rejects with a `SimError` or reads as they are written.
-/

namespace Irata2.Sim

open Library JsonParser

/-! ## Fields -/

/-- The value of a field. -/
def fieldAt (object : JsonValue) (key : String) : Option JsonValue :=
  match object with
  | .object members => OrderedMap.find members key.toList
  | _ => none

theorem requireField_eq_ok {object value : JsonValue} {key : String} :
    requireField object key = .ok value ↔ fieldAt object key = some value := by
  cases object with
  | object members =>
      unfold requireField fieldAt requireObject
      simp only [bind, Except.bind, pure, Except.pure]
      cases OrderedMap.find members key.toList with
      | none => exact ⟨(fun h => by cases h), (fun h => by cases h)⟩
      | some v =>
          rw [Except.ok.injEq, Option.some.injEq]
  | _ => exact ⟨(fun h => by cases h), (fun h => by cases h)⟩

theorem requireString_eq_ok {value : JsonValue} {label : String} {text : Text} :
    requireString value label = .ok text ↔ value = .string text := by
  cases value with
  | string string =>
      show Except.ok string = Except.ok text ↔ _
      rw [Except.ok.injEq, JsonValue.string.injEq]
  | _ => exact ⟨(fun h => by cases h), (fun h => by cases h)⟩

theorem requireNumber_eq_ok {value : JsonValue} {label : String} {number : Int} :
    requireNumber value label = .ok number ↔ value = .number number := by
  cases value with
  | number n =>
      show Except.ok n = Except.ok number ↔ _
      rw [Except.ok.injEq, JsonValue.number.injEq]
  | _ => exact ⟨(fun h => by cases h), (fun h => by cases h)⟩

theorem requireArray_eq_ok {value : JsonValue} {label : String} {array : List JsonValue} :
    requireArray value label = .ok array ↔ value = .array array := by
  cases value with
  | array values =>
      show Except.ok values = Except.ok array ↔ _
      rw [Except.ok.injEq, JsonValue.array.injEq]
  | _ => exact ⟨(fun h => by cases h), (fun h => by cases h)⟩

theorem requireObject_eq_ok {value : JsonValue} {object : List (Text × JsonValue)} :
    requireObject value = .ok object ↔ value = .object object := by
  cases value with
  | object members =>
      show Except.ok members = Except.ok object ↔ _
      rw [Except.ok.injEq, JsonValue.object.injEq]
  | _ => exact ⟨(fun h => by cases h), (fun h => by cases h)⟩

/-! ## Places in the source -/

/-- `loadLocation` reads `location` from `value`. -/
structure LocationRead (value : JsonValue) (location : SourceLocation) : Prop where
  file : fieldAt value "file" = some (.string location.file)
  line : ∃ n, fieldAt value "line" = some (.number n) ∧ location.line = BitVec.ofInt 32 n
  column : ∃ n, fieldAt value "column" = some (.number n) ∧ location.column = BitVec.ofInt 32 n
  positive : 1 ≤ location.line.toInt ∧ 1 ≤ location.column.toInt
  text : fieldAt value "text" = some (.string location.text)

theorem loadLocation_eq_ok {owner : String} {value : JsonValue} {location : SourceLocation} :
    loadLocation owner value = .ok location ↔ LocationRead value location := by
  unfold loadLocation
  simp only [bind_eq_ok, requireField_eq_ok, requireString_eq_ok, requireNumber_eq_ok]
  constructor
  · rintro ⟨_, hfile, file, rfl, _, hline, line, rfl, _, hcolumn, column, rfl, _, hcheck, _, htext,
      text, rfl, h⟩
    cases h
    rw [throwIf_eq_ok] at hcheck
    refine ⟨hfile, ⟨line, hline, rfl⟩, ⟨column, hcolumn, rfl⟩, ?_, htext⟩
    show 1 ≤ (BitVec.ofInt 32 line).toInt ∧ 1 ≤ (BitVec.ofInt 32 column).toInt
    omega
  · rintro ⟨hfile, ⟨line, hline, hl⟩, ⟨column, hcolumn, hc⟩, hpositive, htext⟩
    refine ⟨_, hfile, _, rfl, _, hline, _, rfl, _, hcolumn, _, rfl, (), ?_, _, htext, _, rfl, ?_⟩
    · rw [throwIf_eq_ok, ← hl, ← hc]
      omega
    · rw [← hl, ← hc]
      rfl

/-- The line and the column are the numbers written, and positive. -/
structure LocationExact (value : JsonValue) (location : SourceLocation) : Prop where
  line : fieldAt value "line" = some (.number location.line.toInt)
  column : fieldAt value "column" = some (.number location.column.toInt)
  positive : 0 < location.line.toInt ∧ 0 < location.column.toInt

/-- A line or a column is no `int`. -/
def SlipsLocation (value : JsonValue) : Prop :=
  ∃ n : Int, (fieldAt value "line" = some (.number n) ∨ fieldAt value "column" = some (.number n)) ∧
    (n < -2 ^ 31 ∨ 2 ^ 31 ≤ n)

theorem toInt_ofInt_eq_iff (n : Int) :
    (BitVec.ofInt 32 n).toInt = n ↔ ¬(n < -2 ^ 31 ∨ 2 ^ 31 ≤ n) := by
  rw [BitVec.toInt_ofInt, Int.bmod_def]
  split <;> omega

theorem locationExact_iff {value : JsonValue} {location : SourceLocation}
    (h : LocationRead value location) : LocationExact value location ↔ ¬SlipsLocation value := by
  rcases h.line with ⟨line, hline, hl⟩
  rcases h.column with ⟨column, hcolumn, hc⟩
  constructor
  · rintro hexact ⟨n, hfield, hrange⟩
    apply (toInt_ofInt_eq_iff n).mp _ hrange
    rcases hfield with hn | hn
    · have heq := hexact.line
      rw [hn] at heq hline
      cases hline
      rw [← hl]
      exact (JsonValue.number.inj (Option.some.inj heq)).symm
    · have heq := hexact.column
      rw [hn] at heq hcolumn
      cases hcolumn
      rw [← hc]
      exact (JsonValue.number.inj (Option.some.inj heq)).symm
  · intro hslips
    have hl' : location.line.toInt = line := by
      rw [hl, toInt_ofInt_eq_iff]
      exact fun hrange => hslips ⟨line, .inl hline, hrange⟩
    have hc' : location.column.toInt = column := by
      rw [hc, toInt_ofInt_eq_iff]
      exact fun hrange => hslips ⟨column, .inr hcolumn, hrange⟩
    have hpositive := h.positive
    exact ⟨by rw [hl']; exact hline, by rw [hc']; exact hcolumn, by omega⟩

/-! ## Symbols -/

/-- The word of a symbol. -/
def symbolWord : JsonValue → Option Word
  | .string text => readHex text
  | _ => none

theorem loadSymbol_eq_ok {table table' : List (Text × Word)} {entry : Text × JsonValue} :
    loadSymbol table entry = .ok table' ↔ ∃ w, symbolWord entry.2 = some w ∧
      table' = if (OrderedMap.find table entry.1).isSome then table
        else table ++ [(entry.1, w)] := by
  unfold loadSymbol
  simp only [bind_eq_ok, requireString_eq_ok, parseHexWord_eq_ok]
  constructor
  · rintro ⟨text, htext, w, hw, h⟩
    cases h
    refine ⟨w, ?_, rfl⟩
    rw [htext]
    exact hw
  · rintro ⟨w, hw, rfl⟩
    rcases entry with ⟨name, value⟩
    cases value with
    | string text => exact ⟨text, rfl, w, hw, rfl⟩
    | _ => cases hw

/-- The loop stores, for every name, the word of the first symbol of that name. -/
theorem find_of_loadSymbols {members : List (Text × JsonValue)} {table table' : List (Text × Word)}
    (h : members.foldlM loadSymbol table = .ok table') (name : Text) :
    OrderedMap.find table' name =
      (OrderedMap.find table name).or ((OrderedMap.find members name).bind symbolWord) := by
  induction members generalizing table with
  | nil =>
      cases h
      exact (Option.or_none).symm
  | cons entry members ih =>
      rcases foldlM_cons_eq_ok.mp h with ⟨table₁, hstep, hrest⟩
      rcases loadSymbol_eq_ok.mp hstep with ⟨w, hw, rfl⟩
      rw [ih hrest]
      have hcons : OrderedMap.find (entry :: members) name =
          (OrderedMap.find [entry] name).or (OrderedMap.find members name) :=
        OrderedMap.find_append [entry] members name
      rw [hcons]
      by_cases hname : name = entry.1
      · -- the symbol at hand has this name
        have hself : OrderedMap.find [entry] name = some entry.2 := by
          rw [hname]
          exact OrderedMap.find_singleton_self entry.1 entry.2
        rw [hself, Option.some_or, Option.bind_some, hw, ← hname]
        cases hfind : OrderedMap.find table name with
        | some old =>
            have hsome : (some old).isSome = true := rfl
            rw [if_pos hsome, hfind, Option.some_or, Option.some_or]
        | none =>
            have hnone : ¬(none : Option Word).isSome = true := Bool.false_ne_true
            rw [if_neg hnone, OrderedMap.find_append, OrderedMap.find_singleton_self, hfind,
              Option.none_or, Option.some_or]
      · have hother : OrderedMap.find [entry] name = none := Table.lookup_cons_ne hname
        rw [hother, Option.none_or]
        split
        · rfl
        · have hsingle : OrderedMap.find [(entry.1, w)] name = none := Table.lookup_cons_ne hname
          rw [OrderedMap.find_append, hsingle, Option.or_none]

theorem nodup_of_loadSymbols {members : List (Text × JsonValue)}
    {table table' : List (Text × Word)} (h : members.foldlM loadSymbol table = .ok table')
    (hnodup : (table.map Prod.fst).Nodup) : (table'.map Prod.fst).Nodup := by
  induction members generalizing table with
  | nil =>
      cases h
      exact hnodup
  | cons entry members ih =>
      rcases foldlM_cons_eq_ok.mp h with ⟨table₁, hstep, hrest⟩
      rcases loadSymbol_eq_ok.mp hstep with ⟨w, hw, rfl⟩
      apply ih hrest
      split
      · exact hnodup
      · rename_i hnone
        rw [Option.not_isSome_iff_eq_none] at hnone
        have hnotMem := Table.lookup_eq_none_iff_notMem.mp hnone
        rw [List.map_append, List.nodup_append]
        refine ⟨hnodup, List.nodup_singleton _, ?_⟩
        intro a ha b hb heq
        rw [heq, List.mem_singleton.mp hb] at ha
        exact hnotMem ha

theorem loadSymbols_eq_ok {members : List (Text × JsonValue)} {table : List (Text × Word)} :
    (∃ table', members.foldlM loadSymbol table = .ok table') ↔
      ∀ m ∈ members, (symbolWord m.2).isSome := by
  induction members generalizing table with
  | nil => exact ⟨fun _ m hm => (by cases hm), fun _ => ⟨table, rfl⟩⟩
  | cons entry members ih =>
      simp only [foldlM_cons_eq_ok, loadSymbol_eq_ok, List.forall_mem_cons]
      constructor
      · rintro ⟨table', table₁, ⟨w, hw, -⟩, hrest⟩
        refine ⟨?_, ih.mp ⟨table', hrest⟩⟩
        rw [hw]
        rfl
      · rintro ⟨hentry, hrest⟩
        rcases Option.isSome_iff_exists.mp hentry with ⟨w, hw⟩
        rcases ih.mpr hrest with ⟨table', htable'⟩
        exact ⟨table', _, ⟨w, hw, rfl⟩, htable'⟩

/-! ## Addresses of the source map and records -/

/-- An entry of `pc_to_source`, and what the loader stores of it. -/
structure PcRead (member : Text × JsonValue) (entry : Word × SourceLocation) : Prop where
  address : readHex member.1 = some entry.1
  location : LocationRead member.2 entry.2

theorem loadPcEntry_eq_ok {table table' : List (Word × SourceLocation)}
    {member : Text × JsonValue} :
    loadPcEntry table member = .ok table' ↔
      ∃ e, PcRead member e ∧ table.lookup e.1 = none ∧ table' = table ++ [e] := by
  unfold loadPcEntry
  simp only [bind_eq_ok, loadLocation_eq_ok, parseHexWord_eq_ok]
  constructor
  · rintro ⟨location, hlocation, w, hw, _, hnew, h⟩
    cases h
    rw [throwIf_eq_ok, Option.not_isSome_iff_eq_none] at hnew
    exact ⟨(w, location), ⟨hw, hlocation⟩, hnew, rfl⟩
  · rintro ⟨⟨w, location⟩, ⟨hw, hlocation⟩, hnew, rfl⟩
    refine ⟨location, hlocation, w, hw, (), ?_, rfl⟩
    rw [throwIf_eq_ok, Option.not_isSome_iff_eq_none]
    exact hnew

theorem loadPcs_eq_ok {members : List (Text × JsonValue)}
    {table : List (Word × SourceLocation)} :
    members.foldlM loadPcEntry [] = .ok table ↔
      List.Forall₂ PcRead members table ∧ (table.map Prod.fst).Nodup := by
  rw [@Table.foldlM_new_iff _ _ _ _ _ loadPcEntry PcRead (fun _ _ _ => loadPcEntry_eq_ok) members
    [] table List.nodup_nil]
  constructor
  · rintro ⟨entries, hread, rfl, hnodup⟩
    exact ⟨hread, hnodup⟩
  · rintro ⟨hread, hnodup⟩
    exact ⟨table, hread, rfl, hnodup⟩

/-- A record, and what the loader stores of it. -/
structure RecordRead (romSize : BitVec 32) (value : JsonValue) (record : DebugRecord) : Prop where
  address : ∃ text, fieldAt value "address" = some (.string text) ∧
    readHex text = some record.address
  romOffset : ∃ n : Int, fieldAt value "rom_offset" = some (.number n) ∧ 0 ≤ n ∧
    n < romSize.toNat ∧ record.romOffset = BitVec.ofInt 32 n
  location : LocationRead value record.location

theorem loadRecord_eq_ok {romSize : BitVec 32} {value : JsonValue} {record : DebugRecord} :
    loadRecord romSize value = .ok record ↔ RecordRead romSize value record := by
  unfold loadRecord
  simp only [bind_eq_ok, requireField_eq_ok, requireString_eq_ok, requireNumber_eq_ok,
    loadLocation_eq_ok, parseHexWord_eq_ok]
  constructor
  · rintro ⟨_, haddress, text, rfl, w, hw, _, hoffset, n, rfl, _, hrange, location, hlocation, h⟩
    cases h
    rw [throwIf_eq_ok, not_or, Int.not_lt] at hrange
    exact ⟨⟨text, haddress, hw⟩, ⟨n, hoffset, hrange.1, by omega, rfl⟩, hlocation⟩
  · rintro ⟨⟨text, haddress, hw⟩, ⟨n, hoffset, hzero, hlt, hn⟩, hlocation⟩
    refine ⟨_, haddress, text, rfl, _, hw, _, hoffset, n, rfl, (), ?_, _, hlocation, ?_⟩
    · rw [throwIf_eq_ok]
      omega
    · rw [← hn]
      rfl

/-! ## A whole sidecar -/

theorem loadCartridgeVersion_eq_ok {object : List (Text × JsonValue)} {version : BitVec 32} :
    loadCartridgeVersion object = .ok version ↔
      version = (match OrderedMap.find object "cartridge_version".toList with
        | some (.number n) => BitVec.ofInt 32 n
        | _ => 0) ∧
      ∀ n, OrderedMap.find object "cartridge_version".toList = some (.number n) → 0 ≤ n := by
  unfold loadCartridgeVersion
  generalize OrderedMap.find object "cartridge_version".toList = field
  have hother : (∀ n, field ≠ some (.number n)) →
      ((Except.ok 0 : Except LoadError (BitVec 32)) = .ok version ↔ version = 0 ∧
        ∀ n, field = some (.number n) → 0 ≤ n) := by
    intro hne
    rw [Except.ok.injEq]
    constructor
    · rintro rfl
      exact ⟨rfl, fun n hn => absurd hn (hne n)⟩
    · rintro ⟨rfl, -⟩
      rfl
  cases field with
  | none => exact hother fun n => (fun h => by cases h)
  | some value =>
      cases value with
      | number n =>
          simp only [seq_eq_ok, throwIf_eq_ok, Int.not_lt]
          constructor
          · rintro ⟨hn, h⟩
            cases h
            refine ⟨rfl, ?_⟩
            rintro m ⟨⟩
            exact hn
          · rintro ⟨rfl, hn⟩
            exact ⟨hn n rfl, rfl⟩
      | _ => exact hother fun n => (fun h => by cases h)

/-- The loader stores `loaded` from the document `root`. -/
structure Stored (root : JsonValue) (loaded : DebugSymbols) : Prop where
  version : fieldAt root "version" = some (.string loaded.version)
  entry : ∃ text, fieldAt root "entry" = some (.string text) ∧ readHex text = some loaded.entry
  romSize : ∃ n, fieldAt root "rom_size" = some (.number n) ∧ 0 < n ∧
    loaded.romSize = BitVec.ofInt 32 n
  cartridgeVersion : loaded.cartridgeVersion = (match fieldAt root "cartridge_version" with
      | some (.number n) => BitVec.ofInt 32 n
      | _ => 0) ∧
    ∀ n, fieldAt root "cartridge_version" = some (.number n) → 0 ≤ n
  sourceRoot : fieldAt root "source_root" = some (.string loaded.sourceRoot)
  sourceFiles : ∃ files, fieldAt root "source_files" = some (.array files) ∧
    List.Forall₂ (fun value file => value = .string file) files loaded.sourceFiles
  symbols : ∃ members, fieldAt root "symbols" = some (.object members) ∧
    members.foldlM loadSymbol [] = .ok loaded.symbols
  pcToSource : ∃ members, fieldAt root "pc_to_source" = some (.object members) ∧
    List.Forall₂ PcRead members loaded.pcToSource ∧ (loaded.pcToSource.map Prod.fst).Nodup
  records : ∃ values, fieldAt root "records" = some (.array values) ∧
    List.Forall₂ (RecordRead loaded.romSize) values loaded.records

theorem loadDebugSymbols_eq_ok {content : Text} {symbols : DebugSymbols} :
    loadDebugSymbols content = .ok symbols ↔
      ∃ root, parse content = .ok root ∧ Stored root symbols := by
  unfold loadDebugSymbols parseStringArray
  simp only [bind_eq_ok, requireField_eq_ok, requireString_eq_ok, requireNumber_eq_ok,
    requireArray_eq_ok, requireObject_eq_ok, parseHexWord_eq_ok, loadCartridgeVersion_eq_ok,
    mapM_eq_ok_iff_forall₂, loadPcs_eq_ok, loadRecord_eq_ok]
  constructor
  · rintro ⟨root, hparse, object, rfl, _, hversion, version, rfl, _, hentry, text, rfl, entry,
      hword, _, hsize, n, rfl, _, hcheck, cartridge, hcartridge, _, hroot, sourceRoot, rfl, _,
      hfiles, files, ⟨array, rfl, hread⟩, _, hsymbols, members, rfl, table, hloop, _, hpcs, pcs,
      rfl, pcTable, hpcTable, _, hrecords, values, rfl, records, hrecord, h⟩
    cases h
    rw [throwIf_eq_ok, Int.not_le] at hcheck
    exact ⟨.object object, hparse, hversion, ⟨text, hentry, hword⟩, ⟨n, hsize, hcheck, rfl⟩,
      hcartridge, hroot, ⟨array, hfiles, hread⟩, ⟨members, hsymbols, hloop⟩,
      ⟨pcs, hpcs, hpcTable⟩, ⟨values, hrecords, hrecord⟩⟩
  · rintro ⟨root, hparse, hversion, ⟨text, hentry, hword⟩, ⟨n, hsize, hcheck, hn⟩, hcartridge,
      hroot, ⟨array, hfiles, hread⟩, ⟨members, hsymbols, hloop⟩, ⟨pcs, hpcs, hpcTable⟩,
      ⟨values, hrecords, hrecord⟩⟩
    cases root with
    | object object =>
        refine ⟨.object object, hparse, object, rfl, _, hversion, _, rfl, _, hentry, text, rfl, _,
          hword, _, hsize, n, rfl, (), ?_, _, hcartridge, _, hroot, _, rfl, _, hfiles, _,
          ⟨array, rfl, hread⟩, _, hsymbols, members, rfl, _, hloop, _, hpcs, pcs, rfl, _, hpcTable,
          _, hrecords, values, rfl, symbols.records, ?_, ?_⟩
        · rw [throwIf_eq_ok]
          omega
        · rw [← hn]
          exact hrecord
        · rw [← hn]
          rfl
    | _ => cases hversion

/-! ## What the loader throws -/

theorem outcome_requireObject (value : JsonValue) : Outcome (requireObject value) False := by
  cases value with
  | object object => exact .ok object
  | _ => exact .sim _

theorem outcome_requireField (object : JsonValue) (key : String) :
    Outcome (requireField object key) False := by
  unfold requireField
  apply (outcome_requireObject object).bind_sim
  intro members _
  split
  · exact .ok _
  · exact .sim _

theorem outcome_requireString (value : JsonValue) (label : String) :
    Outcome (requireString value label) False := by
  cases value with
  | string string => exact .ok string
  | _ => exact .sim _

theorem outcome_requireNumber (value : JsonValue) (label : String) :
    Outcome (requireNumber value label) False := by
  cases value with
  | number number => exact .ok number
  | _ => exact .sim _

theorem outcome_requireArray (value : JsonValue) (label : String) :
    Outcome (requireArray value label) False := by
  cases value with
  | array array => exact .ok array
  | _ => exact .sim _

theorem outcome_parseHexWord (value : Text) (label : String) :
    Outcome (parseHexWord value label) False := by
  unfold parseHexWord
  apply (Outcome.throwIf _).bind_sim
  intro _ _
  split
  · exact .sim _
  · apply (Outcome.throwIf _).bind_sim
    intro _ _
    exact .ok _

theorem outcome_parseStringArray (value : JsonValue) (label : String) :
    Outcome (parseStringArray value label) False := by
  unfold parseStringArray
  apply (outcome_requireArray value label).bind_sim
  intro array _
  exact Outcome.mapM fun item _ => outcome_requireString item label

theorem outcome_loadSymbol (table : List (Text × Word)) (entry : Text × JsonValue) :
    Outcome (loadSymbol table entry) False := by
  unfold loadSymbol
  apply (outcome_requireString _ _).bind_sim
  intro text _
  apply (outcome_parseHexWord text _).bind_sim
  intro w _
  exact .ok _

theorem outcome_loadLocation (owner : String) (value : JsonValue) :
    Outcome (loadLocation owner value) False := by
  unfold loadLocation
  apply (outcome_requireField value _).bind_sim
  intro file _
  apply (outcome_requireString file _).bind_sim
  intro _ _
  apply (outcome_requireField value _).bind_sim
  intro line _
  apply (outcome_requireNumber line _).bind_sim
  intro _ _
  apply (outcome_requireField value _).bind_sim
  intro column _
  apply (outcome_requireNumber column _).bind_sim
  intro _ _
  apply (Outcome.throwIf _).bind_sim
  intro _ _
  apply (outcome_requireField value _).bind_sim
  intro text _
  apply (outcome_requireString text _).bind_sim
  intro _ _
  exact .ok _

theorem outcome_loadPcEntry (table : List (Word × SourceLocation)) (entry : Text × JsonValue) :
    Outcome (loadPcEntry table entry) False := by
  unfold loadPcEntry
  apply (outcome_loadLocation _ _).bind_sim
  intro location _
  apply (outcome_parseHexWord _ _).bind_sim
  intro w _
  apply (Outcome.throwIf _).bind_sim
  intro _ _
  exact .ok _

theorem outcome_loadRecord (romSize : BitVec 32) (value : JsonValue) :
    Outcome (loadRecord romSize value) False := by
  unfold loadRecord
  apply (outcome_requireField value _).bind_sim
  intro address _
  apply (outcome_requireString address _).bind_sim
  intro text _
  apply (outcome_parseHexWord text _).bind_sim
  intro w _
  apply (outcome_requireField value _).bind_sim
  intro offset _
  apply (outcome_requireNumber offset _).bind_sim
  intro n _
  apply (Outcome.throwIf _).bind_sim
  intro _ _
  apply (outcome_loadLocation _ value).bind_sim
  intro location _
  exact .ok _

theorem outcome_loadCartridgeVersion (object : List (Text × JsonValue)) :
    Outcome (loadCartridgeVersion object) False := by
  unfold loadCartridgeVersion
  split
  · apply (Outcome.throwIf _).bind_sim
    intro _ _
    exact .ok _
  · exact .ok _

/-- The loader ends on every text, with symbols, with a `SimError`, or with the exception of
`std::stoll` where the parser meets a number beyond 64 bits. -/
theorem outcome_loadDebugSymbols (content : Text) :
    Outcome (loadDebugSymbols content) (LargeDocument content) := by
  unfold loadDebugSymbols
  -- only the parser can run out of range; every later step throws SimError or goes on
  apply ((outcome_parse content).bind (q := fun _ => False) ?_).congr
  · simp only [and_false, exists_false, or_false]
  intro root _
  apply (outcome_requireObject root).bind_sim
  intro object _
  apply (outcome_requireField root _).bind_sim
  intro version _
  apply (outcome_requireString version _).bind_sim
  intro _ _
  apply (outcome_requireField root _).bind_sim
  intro entry _
  apply (outcome_requireString entry _).bind_sim
  intro text _
  apply (outcome_parseHexWord text _).bind_sim
  intro _ _
  apply (outcome_requireField root _).bind_sim
  intro size _
  apply (outcome_requireNumber size _).bind_sim
  intro romSize _
  apply (Outcome.throwIf _).bind_sim
  intro _ _
  apply (outcome_loadCartridgeVersion object).bind_sim
  intro _ _
  apply (outcome_requireField root _).bind_sim
  intro sourceRoot _
  apply (outcome_requireString sourceRoot _).bind_sim
  intro _ _
  apply (outcome_requireField root _).bind_sim
  intro files _
  apply (outcome_parseStringArray files _).bind_sim
  intro _ _
  apply (outcome_requireField root _).bind_sim
  intro symbols _
  apply (outcome_requireObject symbols).bind_sim
  intro members _
  apply (Outcome.foldlM (fun table entry _ => outcome_loadSymbol table entry) []).bind_sim
  intro _ _
  apply (outcome_requireField root _).bind_sim
  intro pcs _
  apply (outcome_requireObject pcs).bind_sim
  intro entries _
  apply (Outcome.foldlM (fun table entry _ => outcome_loadPcEntry table entry) []).bind_sim
  intro _ _
  apply (outcome_requireField root _).bind_sim
  intro records _
  apply (outcome_requireArray records _).bind_sim
  intro values _
  apply (Outcome.mapM fun value _ => outcome_loadRecord _ value).bind_sim
  intro _ _
  exact .ok _

/-! ## Sidecars that are accepted -/

/-- Every check of the loader passes on the document. -/
structure Readable (root : JsonValue) : Prop where
  version : ∃ text, fieldAt root "version" = some (.string text)
  entry : ∃ text, fieldAt root "entry" = some (.string text) ∧ (readHex text).isSome
  sizes : ∃ n, fieldAt root "rom_size" = some (.number n) ∧ 0 < n ∧
    ∃ values, fieldAt root "records" = some (.array values) ∧
      ∀ value ∈ values, ∃ record, RecordRead (BitVec.ofInt 32 n) value record
  cartridgeVersion : ∀ n, fieldAt root "cartridge_version" = some (.number n) → 0 ≤ n
  sourceRoot : ∃ text, fieldAt root "source_root" = some (.string text)
  sourceFiles : ∃ files, fieldAt root "source_files" = some (.array files) ∧
    ∀ value ∈ files, ∃ file, value = .string file
  symbols : ∃ members, fieldAt root "symbols" = some (.object members) ∧
    ∀ member ∈ members, (symbolWord member.2).isSome
  pcToSource : ∃ members, fieldAt root "pc_to_source" = some (.object members) ∧
    (∀ member ∈ members, ∃ entry, PcRead member entry) ∧
    (members.map fun member => readHex member.1).Nodup

theorem nodup_of_pcRead {members : List (Text × JsonValue)}
    {table : List (Word × SourceLocation)} (h : List.Forall₂ PcRead members table) :
    (members.map fun member => readHex member.1).Nodup ↔ (table.map Prod.fst).Nodup := by
  have hmap : (members.map fun member => readHex member.1) = (table.map Prod.fst).map some := by
    induction h with
    | nil => rfl
    | cons hx _ ih => rw [List.map_cons, List.map_cons, List.map_cons, hx.address, ih]
  rw [hmap]
  exact List.nodup_map_iff (Option.some_injective Word)

theorem readable_iff (root : JsonValue) : Readable root ↔ ∃ loaded, Stored root loaded := by
  constructor
  · rintro ⟨⟨version, hversion⟩, ⟨text, hentry, hword⟩, ⟨n, hsize, hn, values, hvalues, hrecords⟩,
      hcartridge, ⟨sourceRoot, hroot⟩, ⟨files, hfiles, hstrings⟩, ⟨members, hsymbols, hwords⟩,
      ⟨pcs, hpcs, hread, hnodup⟩⟩
    rcases Option.isSome_iff_exists.mp hword with ⟨entry, hentryWord⟩
    rcases exists_forall₂_iff.mpr hrecords with ⟨records, hrecords⟩
    rcases exists_forall₂_iff.mpr hstrings with ⟨sourceFiles, hsourceFiles⟩
    rcases loadSymbols_eq_ok.mpr hwords with ⟨table, htable⟩
    rcases exists_forall₂_iff.mpr hread with ⟨pcTable, hpcTable⟩
    exact ⟨⟨version, entry, BitVec.ofInt 32 n, _, sourceRoot, sourceFiles, table, pcTable, records⟩,
      hversion, ⟨text, hentry, hentryWord⟩, ⟨n, hsize, hn, rfl⟩, ⟨rfl, hcartridge⟩, hroot,
      ⟨files, hfiles, hsourceFiles⟩, ⟨members, hsymbols, htable⟩,
      ⟨pcs, hpcs, hpcTable, (nodup_of_pcRead hpcTable).mp hnodup⟩, ⟨values, hvalues, hrecords⟩⟩
  · rintro ⟨loaded, hversion, ⟨text, hentry, hentryWord⟩, ⟨n, hsize, hn, hcut⟩, hcartridge, hroot,
      ⟨files, hfiles, hsourceFiles⟩, ⟨members, hsymbols, htable⟩, ⟨pcs, hpcs, hpcTable, hnodup⟩,
      ⟨values, hvalues, hrecords⟩⟩
    rw [hcut] at hrecords
    exact ⟨⟨_, hversion⟩, ⟨text, hentry, Option.isSome_iff_exists.mpr ⟨_, hentryWord⟩⟩,
      ⟨n, hsize, hn, values, hvalues, exists_forall₂_iff.mp ⟨_, hrecords⟩⟩, hcartridge.2,
      ⟨_, hroot⟩, ⟨files, hfiles, exists_forall₂_iff.mp ⟨_, hsourceFiles⟩⟩,
      ⟨members, hsymbols, loadSymbols_eq_ok.mp ⟨_, htable⟩⟩,
      ⟨pcs, hpcs, exists_forall₂_iff.mp ⟨_, hpcTable⟩, (nodup_of_pcRead hpcTable).mpr hnodup⟩⟩

/-- The loader accepts the texts of the documents on which its checks pass. -/
theorem loadDebugSymbols_accepts_iff (content : Text) :
    (∃ loaded, loadDebugSymbols content = .ok loaded) ↔
      ∃ root, parse content = .ok root ∧ Readable root := by
  simp only [loadDebugSymbols_eq_ok, readable_iff]
  constructor
  · rintro ⟨loaded, root, hparse, h⟩
    exact ⟨root, hparse, loaded, h⟩
  · rintro ⟨root, hparse, loaded, h⟩
    exact ⟨loaded, root, hparse, h⟩

/-! ## Sidecars that are read as they are written -/

/-- An entry of the source map is stored as it is written. -/
def PcExact (member : Text × JsonValue) (entry : Word × SourceLocation) : Prop :=
  HexWord member.1 entry.1 ∧ LocationExact member.2 entry.2

/-- A record is stored as it is written. -/
def RecordExact (value : JsonValue) (record : DebugRecord) : Prop :=
  (∃ text, fieldAt value "address" = some (.string text) ∧ HexWord text record.address) ∧
    fieldAt value "rom_offset" = some (.number record.romOffset.toNat) ∧
    LocationExact value record.location

/-- Every address that the loader stores is a word written in hexadecimal, and every number the one
written. -/
structure Faithful (root : JsonValue) (loaded : DebugSymbols) : Prop where
  entry : ∃ text, fieldAt root "entry" = some (.string text) ∧ HexWord text loaded.entry
  romSize : fieldAt root "rom_size" = some (.number loaded.romSize.toNat)
  cartridgeVersion : ∀ n, fieldAt root "cartridge_version" = some (.number n) →
    loaded.cartridgeVersion.toNat = n
  symbols : ∃ members, fieldAt root "symbols" = some (.object members) ∧
    ∀ e ∈ loaded.symbols, ∃ text, OrderedMap.find members e.1 = some (.string text) ∧
      HexWord text e.2
  pcToSource : ∃ members, fieldAt root "pc_to_source" = some (.object members) ∧
    List.Forall₂ PcExact members loaded.pcToSource
  records : ∃ values, fieldAt root "records" = some (.array values) ∧
    List.Forall₂ RecordExact values loaded.records

/-- The address or the place of an entry of `pc_to_source` slips through. -/
def SlipsPc (member : Text × JsonValue) : Prop := SlipsHex member.1 ∨ SlipsLocation member.2

/-- The address or the place of a record slips through. -/
def SlipsRecord (value : JsonValue) : Prop :=
  (∃ text, fieldAt value "address" = some (.string text) ∧ SlipsHex text) ∨ SlipsLocation value

/-- A field of the document slips through the checks of the loader. -/
inductive Slips (root : JsonValue) : Prop
  | entry {text : Text} (hfield : fieldAt root "entry" = some (.string text)) (h : SlipsHex text)
  | romSize {n : Int} (hfield : fieldAt root "rom_size" = some (.number n)) (h : 2 ^ 32 ≤ n)
  | cartridgeVersion {n : Int} (hfield : fieldAt root "cartridge_version" = some (.number n))
      (h : 2 ^ 32 ≤ n)
  | symbol {members : List (Text × JsonValue)} {name text : Text}
      (hfield : fieldAt root "symbols" = some (.object members))
      (hmember : OrderedMap.find members name = some (.string text)) (h : SlipsHex text)
  | pc {members : List (Text × JsonValue)} {member : Text × JsonValue}
      (hfield : fieldAt root "pc_to_source" = some (.object members)) (hmember : member ∈ members)
      (h : SlipsPc member)
  | record {values : List JsonValue} {value : JsonValue}
      (hfield : fieldAt root "records" = some (.array values)) (hvalue : value ∈ values)
      (h : SlipsRecord value)

theorem toNat_ofInt_eq_iff {n : Int} (hn : 0 ≤ n) :
    ((BitVec.ofInt 32 n).toNat : Int) = n ↔ ¬2 ^ 32 ≤ n := by
  rw [BitVec.toNat_ofInt]
  omega

theorem pcExact_iff {member : Text × JsonValue} {entry : Word × SourceLocation}
    (h : PcRead member entry) : PcExact member entry ↔ ¬SlipsPc member := by
  unfold SlipsPc PcExact
  rw [hexWord_iff_of_readHex h.address, locationExact_iff h.location, not_or]

theorem recordExact_iff {romSize : BitVec 32} {value : JsonValue} {record : DebugRecord}
    (h : RecordRead romSize value record) : RecordExact value record ↔ ¬SlipsRecord value := by
  rcases h.address with ⟨text, haddress, hword⟩
  rcases h.romOffset with ⟨n, hoffset, hzero, hlt, hn⟩
  have hexact : ((BitVec.ofInt 32 n).toNat : Int) = n := by
    -- the offset is below a number of 32 bits
    rw [toNat_ofInt_eq_iff hzero]
    have := romSize.isLt
    omega
  have htext : (∃ text, fieldAt value "address" = some (.string text) ∧
      HexWord text record.address) ↔
      ¬∃ text, fieldAt value "address" = some (.string text) ∧ SlipsHex text := by
    rw [haddress]
    simp only [Option.some.injEq, JsonValue.string.injEq, exists_eq_left',
      hexWord_iff_of_readHex hword]
  unfold SlipsRecord RecordExact
  rw [htext, locationExact_iff h.location, hoffset, hn, hexact, not_or]
  simp only [true_and]

/-- Of the symbols stored, every one is the first of its name, and each name is stored. -/
theorem symbols_faithful_iff {members : List (Text × JsonValue)} {table : List (Text × Word)}
    (h : members.foldlM loadSymbol [] = .ok table) :
    (∀ e ∈ table, ∃ text, OrderedMap.find members e.1 = some (.string text) ∧ HexWord text e.2) ↔
      ∀ name text, OrderedMap.find members name = some (.string text) → ¬SlipsHex text := by
  have hnodup := nodup_of_loadSymbols h List.nodup_nil
  have hfind : ∀ name, OrderedMap.find table name =
      (OrderedMap.find members name).bind symbolWord := find_of_loadSymbols h
  have hwords := loadSymbols_eq_ok.mp ⟨table, h⟩
  constructor
  · intro hall name text hname
    have hmem := hwords _ (Table.mem_of_lookup hname)
    rcases Option.isSome_iff_exists.mp hmem with ⟨w, hw⟩
    have hstored := hfind name
    rw [hname, Option.bind_some, hw] at hstored
    rcases hall _ (Table.mem_of_lookup hstored) with ⟨text', htext', hword⟩
    rw [hname] at htext'
    cases htext'
    exact (hexWord_iff_of_readHex hw).mp hword
  · intro hall e he
    have hconsistent : Table.Consistent table := fun _ _ _ hv hw =>
      congrArg Prod.snd (List.inj_on_of_nodup_map hnodup hv hw rfl)
    have hlookup := hfind e.1
    rw [show OrderedMap.find table e.1 = some e.2 from Table.lookup_of_mem hconsistent he] at hlookup
    rcases Option.bind_eq_some_iff.mp hlookup.symm with ⟨value, hvalue, hw⟩
    cases value with
    | string text => exact ⟨text, hvalue, (hexWord_iff_of_readHex hw).mpr (hall _ _ hvalue)⟩
    | _ => cases hw

/-- What is stored of a document is what is written in it, unless a field slips through. -/
theorem stored_faithful_iff {root : JsonValue} {loaded : DebugSymbols} (h : Stored root loaded) :
    Faithful root loaded ↔ ¬Slips root := by
  rcases h with ⟨-, ⟨text, hentry, hword⟩, ⟨n, hsize, hn, hcut⟩, ⟨hcartridge, hversion⟩, -, -,
    ⟨members, hsymbols, htable⟩, ⟨pcs, hpcs, hpcTable, -⟩, ⟨values, hvalues, hrecords⟩⟩
  have hpc : List.Forall₂ PcExact pcs loaded.pcToSource ↔ ∀ member ∈ pcs, ¬SlipsPc member :=
    forall₂_iff_of_forall₂ hpcTable fun _ _ hread => pcExact_iff hread
  have hrecord : List.Forall₂ RecordExact values loaded.records ↔
      ∀ value ∈ values, ¬SlipsRecord value :=
    forall₂_iff_of_forall₂ hrecords fun _ _ hread => recordExact_iff hread
  have hsymbol := symbols_faithful_iff htable
  have hstoredVersion : ∀ m, fieldAt root "cartridge_version" = some (.number m) →
      loaded.cartridgeVersion = BitVec.ofInt 32 m := by
    intro m hm
    rw [hm] at hcartridge
    exact hcartridge
  constructor
  · intro hfaithful hslips
    -- each way to slip contradicts the field it is about
    cases hslips with
    | entry hfield hs =>
        rcases hfaithful.entry with ⟨text', htext', hhex⟩
        rw [hfield] at htext' hentry
        cases htext'
        cases hentry
        exact (hexWord_iff_of_readHex hword).mp hhex hs
    | romSize hfield hs =>
        have hexact := hfaithful.romSize
        rw [hfield] at hexact hsize
        cases hsize
        rw [hcut] at hexact
        exact (toNat_ofInt_eq_iff (by omega)).mp (JsonValue.number.inj (Option.some.inj hexact)).symm
          hs
    | @cartridgeVersion m hfield hs =>
        have hexact := hfaithful.cartridgeVersion m hfield
        rw [hstoredVersion m hfield] at hexact
        exact (toNat_ofInt_eq_iff (hversion m hfield)).mp hexact hs
    | symbol hfield hmember hs =>
        rcases hfaithful.symbols with ⟨members', hmembers', hall⟩
        rw [hsymbols] at hfield hmembers'
        cases hfield
        cases hmembers'
        exact hsymbol.mp hall _ _ hmember hs
    | pc hfield hmember hs =>
        rcases hfaithful.pcToSource with ⟨members', hmembers', hall⟩
        rw [hpcs] at hfield hmembers'
        cases hfield
        cases hmembers'
        exact hpc.mp hall _ hmember hs
    | record hfield hvalue hs =>
        rcases hfaithful.records with ⟨values', hvalues', hall⟩
        rw [hvalues] at hfield hvalues'
        cases hfield
        cases hvalues'
        exact hrecord.mp hall _ hvalue hs
  · intro hslips
    -- a field that is not faithful is a way to slip
    refine ⟨⟨text, hentry, ?_⟩, ?_, ?_, ⟨members, hsymbols, ?_⟩, ⟨pcs, hpcs, ?_⟩,
      ⟨values, hvalues, ?_⟩⟩
    · exact (hexWord_iff_of_readHex hword).mpr fun hs => hslips (.entry hentry hs)
    · rw [hcut, (toNat_ofInt_eq_iff (by omega)).mpr fun hs => hslips (.romSize hsize hs)]
      exact hsize
    · intro m hm
      rw [hstoredVersion m hm]
      exact (toNat_ofInt_eq_iff (hversion m hm)).mpr fun hs => hslips (.cartridgeVersion hm hs)
    · exact hsymbol.mpr fun name text hname hs => hslips (.symbol hsymbols hname hs)
    · exact hpc.mpr fun member hmember hs => hslips (.pc hpcs hmember hs)
    · exact hrecord.mpr fun value hvalue hs => hslips (.record hvalues hvalue hs)

/-- A text is rejected with a `SimError`, or it is a document that is stored as it is written. -/
def Uniform (content : Text) : Prop :=
  (∃ message, loadDebugSymbols content = .error (.sim message)) ∨
    ∃ root loaded, parse content = .ok root ∧ loadDebugSymbols content = .ok loaded ∧
      Faithful root loaded

/-- Sidecars are rejected uniformly exactly where the parser meets no number beyond 64 bits and no
field of a document that the loader accepts slips through its checks. -/
theorem uniform_iff (content : Text) :
    Uniform content ↔ ¬LargeDocument content ∧
      ∀ root, parse content = .ok root → Readable root → ¬Slips root := by
  have houtcome := outcome_loadDebugSymbols content
  cases hload : loadDebugSymbols content with
  | ok loaded =>
      rcases loadDebugSymbols_eq_ok.mp hload with ⟨root, hparse, hstored⟩
      have hlarge : ¬LargeDocument content := by
        rw [hload] at houtcome
        exact houtcome
      have huniform : Uniform content ↔ Faithful root loaded := by
        constructor
        · rintro (⟨message, hm⟩ | ⟨root', loaded', hparse', hload', hfaithful⟩)
          · rw [hload] at hm
            cases hm
          · rw [hparse] at hparse'
            rw [hload] at hload'
            cases hparse'
            cases hload'
            exact hfaithful
        · intro hfaithful
          exact .inr ⟨root, loaded, hparse, hload, hfaithful⟩
      rw [huniform, stored_faithful_iff hstored, and_iff_right hlarge]
      constructor
      · intro hslips root' hparse' _
        rw [hparse] at hparse'
        cases hparse'
        exact hslips
      · intro hall
        exact hall root hparse ((readable_iff root).mpr ⟨loaded, hstored⟩)
  | error e =>
      -- a text that is not loaded is no document on which the checks pass
      have hnone : ∀ root, parse content = .ok root → Readable root → ¬Slips root := by
        intro root hparse hreadable
        rcases (loadDebugSymbols_accepts_iff content).mpr ⟨root, hparse, hreadable⟩ with
          ⟨loaded, hok⟩
        rw [hload] at hok
        cases hok
      have huniform : Uniform content ↔ ∃ message, e = .sim message := by
        constructor
        · rintro (⟨message, hm⟩ | ⟨root, loaded, -, hok, -⟩)
          · rw [hload] at hm
            cases hm
            exact ⟨message, rfl⟩
          · rw [hload] at hok
            cases hok
        · rintro ⟨message, rfl⟩
          exact .inl ⟨message, hload⟩
      rw [huniform, and_iff_left hnone]
      rw [hload] at houtcome
      cases e with
      | sim message => exact ⟨fun _ => houtcome, fun _ => ⟨message, rfl⟩⟩
      | outOfRange => exact ⟨fun ⟨_, h⟩ => (by cases h), fun h => absurd houtcome h⟩
      | depth => exact absurd houtcome id

/-- A sidecar whose entry has letters behind its digits. -/
def slippedSidecar : Text :=
  ("\x7b\"version\":\"1\",\"entry\":\"0x8000zz\",\"rom_size\":1,\"source_root\":\"\"," ++
    "\"source_files\":[],\"symbols\":\x7b\x7d,\"pc_to_source\":\x7b\x7d," ++
    "\"records\":[]\x7d").toList

/-- The sidecar is loaded, and a number of twenty digits throws no `SimError`. -/
theorem not_uniform_slippedSidecar :
    ¬Uniform slippedSidecar ∧ ¬Uniform "99999999999999999999".toList := by
  constructor
  · have hentry : (parse slippedSidecar >>= fun root => requireField root "entry" >>= fun value =>
        requireString value "entry").toOption = some "0x8000zz".toList := by decide +kernel
    have hload : (loadDebugSymbols slippedSidecar).toOption.isSome = true := by decide +kernel
    rintro (⟨message, hm⟩ | ⟨root, loaded, hparse, -, hfaithful⟩)
    · rw [hm] at hload
      cases hload
    · rcases hfaithful.entry with ⟨text, htext, digits, rfl, -, hdigits, -⟩
      rw [hparse] at hentry
      have hfield := requireField_eq_ok.mpr htext
      have htext : "0x".toList ++ digits = "0x8000zz".toList := by
        apply Option.some.inj
        rw [← hentry]
        show _ = (requireField root "entry" >>= fun value => requireString value "entry").toOption
        rw [hfield]
        rfl
      have hbehind : digits = "8000zz".toList := List.append_cancel_left htext
      rw [hbehind] at hdigits
      exact absurd (hdigits 'z' (by decide)) (by decide)
  · have hload : loadDebugSymbols "99999999999999999999".toList = .error .outOfRange := rfl
    rintro (⟨message, hm⟩ | ⟨root, loaded, -, hok, -⟩)
    · rw [hload] at hm
      cases hm
    · rw [hload] at hok
      cases hok

end Irata2.Sim
