import Irata2.Library.Joining
import Irata2.Microcode.Decoder

/-!
# Reading a dump back

The text of a dump determines the entries that it lists when the names in it can be told apart: the
lines of the text are split at their newlines, the steps with their controls are blocks of lines,
and the names of a line are split at their commas.
-/

namespace Irata2.Microcode.Decoder

open Library

variable {program : MicrocodeProgram}

/-! ## Names -/

/-- Every bit of the status has a name, and no two names are equal. -/
structure NamedDistinctly (program : MicrocodeProgram) : Prop where
  statusNamed : ∀ i < 8, ∃ b ∈ program.statusBits, b.bit = i
  statusDistinct : (program.statusBits.map (·.name)).Nodup

/-- The names can be told apart in a text: no flag is called as the status without flags, no two
controls have one name, and no name contains the characters that stand between two names. -/
structure Legible (program : MicrocodeProgram) : Prop extends NamedDistinctly program where
  statusName : ∀ b ∈ program.statusBits,
    b.name ≠ "default" ∧ ',' ∉ b.name.toList ∧ '\n' ∉ b.name.toList
  pathsDistinct : program.controlPaths.Nodup
  pathName : ∀ path ∈ program.controlPaths,
    path ≠ "" ∧ ',' ∉ path.toList ∧ '\n' ∉ path.toList

/-- The words of a table have bits for the control paths only. -/
def WordsFit (program : MicrocodeProgram) : Prop :=
  ∀ e ∈ program.table, e.2.toNat < 2 ^ program.controlPaths.length

/-- The names that the header of a status joins. -/
def flags (program : MicrocodeProgram) (status : Byte) : List String :=
  if status = 0 then ["default"]
  else (program.statusBits.filter fun b => status.getLsbD b.bit).map (·.name)

theorem decodeStatusBits_eq (status : Byte) :
    decodeStatusBits program status = ",".intercalate (flags program status) := by
  unfold decodeStatusBits flags
  split
  · rfl
  · rfl

theorem mem_flags (h : Legible program) {b : StatusBitDefinition} (hb : b ∈ program.statusBits)
    (status : Byte) : b.name ∈ flags program status ↔ status.getLsbD b.bit = true := by
  unfold flags
  by_cases hzero : status = 0
  · -- no name is that of the status without flags
    have hname := (h.statusName b hb).1
    simp [hzero, hname]
  · rw [if_neg hzero, List.mem_map]
    constructor
    · rintro ⟨b', hb', hname⟩
      rw [List.mem_filter] at hb'
      have hsame := List.inj_on_of_nodup_map h.statusDistinct hb'.1 hb hname
      rw [← hsame]
      exact hb'.2
    · intro hset
      exact ⟨b, List.mem_filter.mpr ⟨hb, hset⟩, rfl⟩

theorem flags_ne_nil (h : Legible program) (status : Byte) : flags program status ≠ [] := by
  by_cases hzero : status = 0
  · unfold flags
    rw [if_pos hzero]
    exact List.cons_ne_nil _ _
  · -- some bit is set, and it has a name
    have hset : ∃ i < 8, status.getLsbD i = true := by
      by_contra hnone
      apply hzero
      apply BitVec.eq_of_getLsbD_eq
      intro i hi
      have hclear : (0 : Byte).getLsbD i = false := BitVec.getLsbD_zero
      rw [hclear, ← Bool.not_eq_true]
      exact fun hbit => hnone ⟨i, hi, hbit⟩
    rcases hset with ⟨i, hi, hbit⟩
    rcases h.statusNamed i hi with ⟨b, hb, rfl⟩
    exact List.ne_nil_of_mem ((mem_flags h hb status).mpr hbit)

theorem flags_plain (h : Legible program) (status : Byte) :
    ∀ name ∈ flags program status, ',' ∉ name.toList ∧ '\n' ∉ name.toList := by
  intro name hname
  unfold flags at hname
  split at hname
  · rw [List.mem_singleton] at hname
    rw [hname]
    decide
  · rcases List.mem_map.mp hname with ⟨b, hb, rfl⟩
    exact (h.statusName b (List.mem_filter.mp hb).1).2

theorem toList_comma : ",".toList = [','] := rfl

/-- The header of a status determines the status. -/
theorem decodeStatusBits_injective (h : Legible program) :
    Function.Injective (decodeStatusBits program) := by
  intro s t heq
  rw [decodeStatusBits_eq, decodeStatusBits_eq] at heq
  have hlists := congrArg String.toList heq
  rw [String.toList_intercalate, String.toList_intercalate, toList_comma] at hlists
  have hplain : ∀ status, ∀ l ∈ (flags program status).map String.toList, ',' ∉ l := by
    intro status l hl
    rcases List.mem_map.mp hl with ⟨name, hname, rfl⟩
    exact (flags_plain h status name hname).1
  have hne : ∀ status, (flags program status).map String.toList ≠ [] :=
    fun status hnil => flags_ne_nil h status (List.map_eq_nil_iff.mp hnil)
  have hflags : flags program s = flags program t :=
    List.map_injective_iff.mpr (fun a b hab => String.toList_inj.mp hab)
      (intercalate_inj (hne s) (hne t) (hplain s) (hplain t) hlists)
  apply BitVec.eq_of_getLsbD_eq
  intro i hi
  rcases h.statusNamed i hi with ⟨b, hb, rfl⟩
  rw [Bool.eq_iff_iff, ← mem_flags h hb, ← mem_flags h hb, hflags]

theorem mem_decodeControlWord (h : program.controlPaths.Nodup) {i : Nat}
    (hi : i < program.controlPaths.length) (word : ControlWord) :
    program.controlPaths[i] ∈ decodeControlWord program word ↔ word.getLsbD i = true := by
  unfold decodeControlWord
  rw [List.mem_map]
  constructor
  · rintro ⟨⟨path, j⟩, hmem, hpath⟩
    rw [List.mem_filter, List.mem_zipIdx_iff_getElem?] at hmem
    rcases List.getElem?_eq_some_iff.mp hmem.1 with ⟨hj, hget⟩
    have hij : j = i := (List.Nodup.getElem_inj_iff h).mp (hget.trans hpath)
    rw [← hij]
    exact hmem.2
  · intro hset
    refine ⟨(program.controlPaths[i], i), ?_, rfl⟩
    rw [List.mem_filter, List.mem_zipIdx_iff_getElem?]
    exact ⟨List.getElem?_eq_getElem hi, hset⟩

theorem subset_decodeControlWord (word : ControlWord) :
    decodeControlWord program word ⊆ program.controlPaths := by
  intro path hpath
  rcases List.mem_map.mp hpath with ⟨⟨p, i⟩, hmem, rfl⟩
  have hget := List.mem_zipIdx_iff_getElem?.mp (List.mem_filter.mp hmem).1
  exact List.mem_of_getElem? hget

/-- The list of a word's controls determines the word. -/
theorem decodeControlWord_inj (h : program.controlPaths.Nodup) {v w : ControlWord}
    (hv : v.toNat < 2 ^ program.controlPaths.length) (hw : w.toNat < 2 ^ program.controlPaths.length)
    (heq : decodeControlWord program v = decodeControlWord program w) : v = w := by
  apply BitVec.eq_of_getLsbD_eq
  intro i _
  by_cases hi : i < program.controlPaths.length
  · rw [Bool.eq_iff_iff, ← mem_decodeControlWord h hi, ← mem_decodeControlWord h hi, heq]
  · -- the words have no bits beyond the paths
    have hpow : 2 ^ program.controlPaths.length ≤ 2 ^ i := Nat.pow_le_pow_right (by omega) (by omega)
    show v.toNat.testBit i = w.toNat.testBit i
    rw [Nat.testBit_lt_two_pow (by omega), Nat.testBit_lt_two_pow (by omega)]

/-- An entry of a dump determines the entry of the table. -/
theorem entryOf_inj (h : Legible program) {e e' : Nat × ControlWord}
    (he : e.2.toNat < 2 ^ program.controlPaths.length)
    (he' : e'.2.toNat < 2 ^ program.controlPaths.length)
    (heq : entryOf program e = entryOf program e') : e = e' := by
  have hopcode : e.1 / 65536 = e'.1 / 65536 := Option.some.inj (congrArg Entry.opcode heq)
  have hstep : e.1 / 256 % 256 = e'.1 / 256 % 256 := congrArg Entry.step heq
  have hstatus := decodeStatusBits_injective h (Option.some.inj (congrArg Entry.status heq))
  have hnat := congrArg BitVec.toNat hstatus
  rw [BitVec.toNat_ofNat, BitVec.toNat_ofNat] at hnat
  apply Prod.ext
  · omega
  · exact decodeControlWord_inj h.pathsDistinct he he' (congrArg Entry.controls heq)

/-! ## Numbers -/

theorem toDigits_inj {n m : Nat} (h : Nat.toDigits 10 n = Nat.toDigits 10 m) : n = m := by
  have hvalue : Nat.ofDigitChars 10 (Nat.toDigits 10 n) 0 =
      Nat.ofDigitChars 10 (Nat.toDigits 10 m) 0 := by
    rw [h]
  rw [Nat.ofDigitChars_toDigits (by decide) (by decide),
    Nat.ofDigitChars_toDigits (by decide) (by decide)] at hvalue
  exact hvalue

theorem notMem_toString {c : Char} (hc : c.isDigit = false) (n : Nat) :
    c ∉ (toString n).toList := by
  intro hmem
  rw [Nat.toString_eq_repr, Nat.toList_repr] at hmem
  rw [Nat.isDigit_of_mem_toDigits (by decide) (by decide) hmem] at hc
  cases hc

/-! ## Lines -/

/-- A name in a line does not end it, and a control's name is not that of an empty list. -/
def LegibleLine : DumpLine → Prop
  | .blank => True
  | .opcode _ => True
  | .status flags => '\n' ∉ flags.toList
  | .step _ controls => ∀ c ∈ controls, c ≠ "" ∧ ',' ∉ c.toList ∧ '\n' ∉ c.toList

theorem notMem_append {c : Char} {a b : String} (ha : c ∉ a.toList) (hb : c ∉ b.toList) :
    c ∉ (a ++ b).toList := by
  rw [String.toList_append, List.mem_append]
  exact fun h => h.elim ha hb

theorem notMem_intercalate {c : Char} {sep : String} (hsep : c ∉ sep.toList) {l : List String}
    (hl : ∀ t ∈ l, c ∉ t.toList) : c ∉ (sep.intercalate l).toList := by
  induction l with
  | nil => simp
  | cons t l ih =>
      rw [List.forall_mem_cons] at hl
      cases l with
      | nil =>
          rw [String.intercalate_singleton]
          exact hl.1
      | cons u l =>
          rw [String.intercalate_cons_cons]
          exact notMem_append (notMem_append hl.1 hsep) (ih hl.2)

/-- The lines that a text ends in newlines are determined by it. -/
theorem text_inj {lines lines' : List String} (h : ∀ l ∈ lines, '\n' ∉ l.toList)
    (h' : ∀ l ∈ lines', '\n' ∉ l.toList) (heq : text lines = text lines') : lines = lines' := by
  have htext : ∀ l : List String, (text l).toList = (l.map String.toList).flatMap (· ++ ['\n']) := by
    intro l
    unfold text
    rw [String.toList_join, List.flatMap_map, List.flatMap_map]
    congr
    funext a
    rw [String.toList_append]
    rfl
  have hchars := congrArg String.toList heq
  rw [htext, htext] at hchars
  apply List.map_injective_iff.mpr fun a b hab => String.toList_inj.mp hab
  apply flatMap_line_inj _ _ hchars
  · intro t ht
    rcases List.mem_map.mp ht with ⟨l, hl, rfl⟩
    exact h l hl
  · intro t ht
    rcases List.mem_map.mp ht with ⟨l, hl, rfl⟩
    exact h' l hl

/-- The controls in the brackets of a step are determined, the empty list too. -/
theorem controls_inj {l l' : List String} (h : ∀ c ∈ l, c ≠ "" ∧ ',' ∉ c.toList ∧ '\n' ∉ c.toList)
    (h' : ∀ c ∈ l', c ≠ "" ∧ ',' ∉ c.toList ∧ '\n' ∉ c.toList)
    (heq : [',', ' '].intercalate (l.map String.toList) =
      [',', ' '].intercalate (l'.map String.toList)) : l = l' := by
  -- a list of names that are not empty has a text that is not empty
  have hempty : ∀ l : List String, (∀ c ∈ l, c ≠ "" ∧ ',' ∉ c.toList ∧ '\n' ∉ c.toList) →
      [',', ' '].intercalate (l.map String.toList) = [] → l = [] := by
    intro l hl htext
    cases l with
    | nil => rfl
    | cons c l =>
        have hc := (hl c List.mem_cons_self).1
        cases l with
        | nil =>
            rw [List.map_singleton, List.intercalate_singleton] at htext
            exact absurd (String.toList_eq_nil_iff.mp htext) hc
        | cons d l => simp [List.intercalate_cons_cons] at htext
  by_cases hnil : l = []
  · rw [hnil] at heq
    rw [hnil, hempty l' h' heq.symm]
  · by_cases hnil' : l' = []
    · rw [hnil'] at heq
      exact absurd (hempty l h heq) hnil
    · apply List.map_injective_iff.mpr fun a b hab => String.toList_inj.mp hab
      apply intercalate_inj _ _ _ _ heq
      · simpa using hnil
      · simpa using hnil'
      · simpa using fun c hc => (h c hc).2.1
      · simpa using fun c hc => (h' c hc).2.1

/-! ## The plain text -/

theorem plainText_newline {line : DumpLine} (h : LegibleLine line) :
    ∀ l ∈ plainText line, '\n' ∉ l.toList := by
  have hdigit : ∀ n : Nat, '\n' ∉ (toString n).toList := notMem_toString (by decide)
  cases line with
  | blank => simp [plainText]
  | opcode n =>
      simp only [plainText, List.forall_mem_singleton]
      exact notMem_append (notMem_append (by decide) (hdigit n)) (by decide)
  | status flags =>
      simp only [plainText, List.forall_mem_singleton]
      exact notMem_append (notMem_append (by decide) h) (by decide)
  | step n controls =>
      simp only [plainText, List.forall_mem_singleton]
      have hcontrols : '\n' ∉ (", ".intercalate controls).toList :=
        notMem_intercalate (by decide) fun c hc => (h c hc).2.2
      exact notMem_append (notMem_append (notMem_append (notMem_append (by decide) (hdigit n))
        (by decide)) hcontrols) (by decide)

/-- A number ends at a colon. -/
theorem toDigits_colon_inj {n n' : Nat} {rest rest' : List Char}
    (heq : Nat.toDigits 10 n ++ ':' :: rest = Nat.toDigits 10 n' ++ ':' :: rest') :
    n = n' ∧ rest = rest' := by
  have hcolon : ∀ n : Nat, ':' ∉ Nat.toDigits 10 n := by
    intro n hmem
    have hdigit := Nat.isDigit_of_mem_toDigits (by decide) (by decide) hmem
    cases hdigit
  rcases append_cons_inj (hcolon n) (hcolon n') heq with ⟨hdigits, hrest⟩
  exact ⟨toDigits_inj hdigits, hrest⟩

theorem plainText_inj {line line' : DumpLine} (h : LegibleLine line) (h' : LegibleLine line')
    (heq : plainText line = plainText line') : line = line' := by
  have hchars : (plainText line).map String.toList = (plainText line').map String.toList := by
    rw [heq]
  -- lines of different kinds begin differently
  cases line with
  | blank => cases line' <;> simp [plainText] at hchars ⊢
  | opcode n =>
      cases line' with
      | opcode n' =>
          simp [plainText] at hchars
          rw [toDigits_inj hchars]
      | _ => simp [plainText] at hchars
  | status flags =>
      cases line' with
      | status flags' =>
          simp [plainText] at hchars
          rw [String.toList_inj.mp hchars]
      | _ => simp [plainText] at hchars
  | step n controls =>
      cases line' with
      | step n' controls' =>
          simp [plainText] at hchars
          rcases toDigits_colon_inj hchars with ⟨rfl, hrest⟩
          simp at hrest
          rw [controls_inj h h' hrest]
      | _ => simp [plainText] at hchars

/-! ## The YAML text -/

/-- A line that begins a header or a step, by what stands behind the indent. -/
def isHead (indent line : String) : Bool :=
  let rest := line.toList.drop indent.toList.length
  !("    s".toList.isPrefixOf rest || "        ".toList.isPrefixOf rest)

/-- The header of an opcode is a line of its own kind and shows the opcode. -/
structure IsOpcodeHeader (indent : String) (opcodeHeader : Nat → String) : Prop where
  indent_newline : '\n' ∉ indent.toList
  newline : ∀ n, '\n' ∉ (opcodeHeader n).toList
  isHead : ∀ n, isHead indent (opcodeHeader n) = true
  injective : Function.Injective opcodeHeader

section Yaml

variable {indent : String} {opcodeHeader : Nat → String}

theorem isHead_append (t : String) :
    isHead indent (indent ++ t) =
      !("    s".toList.isPrefixOf t.toList || "        ".toList.isPrefixOf t.toList) := by
  unfold isHead
  rw [String.toList_append, List.drop_left]

theorem yamlText_newline (h : IsOpcodeHeader indent opcodeHeader) {line : DumpLine}
    (hline : LegibleLine line) : ∀ l ∈ yamlText indent opcodeHeader line, '\n' ∉ l.toList := by
  have hindent := h.indent_newline
  cases line with
  | blank => exact fun l hl => by cases hl
  | opcode n =>
      simp only [yamlText, List.forall_mem_singleton]
      exact h.newline n
  | status flags =>
      simp only [yamlText, List.forall_mem_cons]
      exact ⟨notMem_append (notMem_append (notMem_append hindent (by decide)) hline) (by decide),
        notMem_append hindent (by decide), fun l hl => by cases hl⟩
  | step n controls =>
      simp only [yamlText, List.forall_mem_cons, List.forall_mem_map]
      refine ⟨notMem_append (notMem_append hindent (by decide)) (notMem_toString (by decide) n),
        notMem_append hindent (by decide), ?_⟩
      intro c hc
      exact notMem_append (notMem_append hindent (by decide)) (hline c hc).2.2

/-- What is not blank is a block of lines with one head, the first one. -/
theorem yamlText_block (h : IsOpcodeHeader indent opcodeHeader) {line : DumpLine}
    (hline : line ≠ .blank) :
    ∃ head body, yamlText indent opcodeHeader line = head :: body ∧ isHead indent head = true ∧
      ∀ l ∈ body, isHead indent l = false := by
  cases line with
  | blank => exact absurd rfl hline
  | opcode n => exact ⟨_, [], rfl, h.isHead n, fun l hl => by cases hl⟩
  | status flags =>
      refine ⟨_, _, rfl, ?_, ?_⟩
      · rw [String.append_assoc, String.append_assoc, isHead_append]
        simp [List.isPrefixOf]
      · rw [List.forall_mem_singleton, isHead_append]
        rfl
  | step n controls =>
      refine ⟨_, _, rfl, ?_, ?_⟩
      · rw [String.append_assoc, isHead_append]
        simp [List.isPrefixOf]
      · simp only [List.forall_mem_cons, List.forall_mem_map]
        refine ⟨by rw [isHead_append]; rfl, ?_⟩
        intro c hc
        rw [String.append_assoc, isHead_append]
        simp [List.isPrefixOf]

theorem yamlText_inj (h : IsOpcodeHeader indent opcodeHeader) {line line' : DumpLine}
    (hline : line ≠ .blank) (hline' : line' ≠ .blank)
    (heq : yamlText indent opcodeHeader line = yamlText indent opcodeHeader line') :
    line = line' := by
  have hchars : (yamlText indent opcodeHeader line).map String.toList =
      (yamlText indent opcodeHeader line').map String.toList := by
    rw [heq]
  cases line with
  | blank => exact absurd rfl hline
  | opcode n =>
      cases line' with
      | blank => exact absurd rfl hline'
      | opcode n' =>
          simp only [yamlText, List.cons.injEq, and_true] at heq
          rw [h.injective heq]
      | _ => simp [yamlText] at heq
  | status flags =>
      cases line' with
      | blank => exact absurd rfl hline'
      | status flags' =>
          simp [yamlText] at hchars
          rw [String.toList_inj.mp hchars]
      | _ => simp [yamlText] at hchars
  | step n controls =>
      cases line' with
      | blank => exact absurd rfl hline'
      | step n' controls' =>
          simp [yamlText] at hchars
          have hinj : Function.Injective
              (String.toList ∘ fun control => indent ++ "          - " ++ control) := by
            intro c c' hc
            simp only [Function.comp_apply, String.toList_append, List.append_cancel_left_eq] at hc
            exact String.toList_inj.mp hc
          rw [toDigits_inj hchars.1, List.map_injective_iff.mpr hinj hchars.2]
      | _ => simp [yamlText] at hchars

/-- The lines of a YAML dump determine what it writes, the blank lines apart. -/
theorem yamlLines_inj (h : IsOpcodeHeader indent opcodeHeader) {lines lines' : List DumpLine}
    (heq : lines.flatMap (yamlText indent opcodeHeader) =
      lines'.flatMap (yamlText indent opcodeHeader)) :
    lines.filter (· ≠ .blank) = lines'.filter (· ≠ .blank) := by
  -- a blank line has no text
  have hfilter : ∀ l : List DumpLine, (l.filter (· ≠ .blank)).flatMap
      (yamlText indent opcodeHeader) = l.flatMap (yamlText indent opcodeHeader) := by
    intro l
    induction l with
    | nil => rfl
    | cons line l ih =>
        by_cases hblank : line = .blank
        · rw [List.filter_cons, if_neg (by simp [hblank]), ih, hblank]
          rfl
        · rw [List.filter_cons, if_pos (by simp [hblank]), List.flatMap_cons, ih, List.flatMap_cons]
  have hmem : ∀ l : List DumpLine, ∀ line ∈ l.filter (· ≠ .blank), line ≠ .blank := by
    intro l line hline
    exact of_decide_eq_true (List.mem_filter.mp hline).2
  rw [← hfilter lines, ← hfilter lines'] at heq
  exact flatMap_block_inj (isHead indent) (· ≠ .blank) (fun line => yamlText_block h)
    (fun line line' => yamlText_inj h) (hmem lines) (hmem lines') heq

end Yaml

theorem isOpcodeHeader_program :
    IsOpcodeHeader "  " fun n => "  " ++ toString n ++ ":" where
  indent_newline := by decide
  newline n := notMem_append (notMem_append (by decide) (notMem_toString (by decide) n)) (by decide)
  isHead n := by
    -- a digit is not a space
    rw [String.append_assoc, isHead_append, String.toList_append, Nat.toString_eq_repr,
      Nat.toList_repr]
    cases hdigits : Nat.toDigits 10 n with
    | nil => exact absurd hdigits Nat.toDigits_ne_nil
    | cons c l =>
        have hdigit : c.isDigit = true :=
          Nat.isDigit_of_mem_toDigits (by decide) (by decide) (hdigits ▸ List.mem_cons_self)
        have hne : (' ' == c) = false := by
          rw [beq_eq_false_iff_ne]
          rintro rfl
          cases hdigit
        simp [List.isPrefixOf, hne]
  injective n m h := by
    have hchars := congrArg String.toList h
    simp at hchars
    exact toDigits_inj hchars

theorem isOpcodeHeader_instruction :
    IsOpcodeHeader "" fun n => "opcode_" ++ toString n ++ ":" where
  indent_newline := by decide
  newline n := notMem_append (notMem_append (by decide) (notMem_toString (by decide) n)) (by decide)
  isHead n := by
    simp [isHead, List.isPrefixOf]
  injective n m h := by
    have hchars := congrArg String.toList h
    simp at hchars
    exact toDigits_inj hchars

/-! ## The lines of a loop -/

theorem decodeStatusBits_newline (h : Legible program) (status : Byte) :
    '\n' ∉ (decodeStatusBits program status).toList := by
  rw [decodeStatusBits_eq]
  exact notMem_intercalate (by decide) fun t ht => (flags_plain h status t ht).2

theorem legible_programLoop (h : Legible program) {keys : List MicrocodeKey}
    {currentOpcode currentStatus : Byte} {lines : List DumpLine}
    (hlines : programLoop program currentOpcode currentStatus keys = some lines) :
    ∀ line ∈ lines, LegibleLine line := by
  induction keys generalizing currentOpcode currentStatus lines with
  | nil =>
      cases hlines
      exact fun line hline => by cases hline
  | cons key keys ih =>
      simp only [programLoop, Option.bind_eq_bind, Option.bind_eq_some_iff, Option.pure_def,
        Option.some.injEq, dumpKey_eq_some] at hlines
      rcases hlines with ⟨_, ⟨word, -, rfl⟩, rest, hrest, rfl⟩
      have hheader : ∀ (p : Prop) [Decidable p] {line : DumpLine} {l : List DumpLine},
          line ∈ (if p then l else []) → line ∈ l := by
        intro p _ line l hline
        split at hline
        · exact hline
        · cases hline
      intro line hline
      simp only [List.mem_append, List.mem_singleton] at hline
      rcases hline with (hline | hline | rfl) | hline
      · -- the opcode's header, perhaps with a blank line before it
        rcases List.mem_append.mp (hheader _ hline) with hblank | hopcode
        · rw [List.mem_singleton.mp (hheader _ hblank)]
          trivial
        · rw [List.mem_singleton.mp hopcode]
          trivial
      · rw [List.mem_singleton.mp (hheader _ hline)]
        exact decodeStatusBits_newline h _
      · intro c hc
        exact h.pathName c (subset_decodeControlWord _ hc)
      · exact ih hrest line hline

theorem entries_filter (opcode : Option Nat) (status : Option String) (lines : List DumpLine) :
    entries opcode status (lines.filter (· ≠ .blank)) = entries opcode status lines := by
  induction lines generalizing opcode status with
  | nil => rfl
  | cons line lines ih =>
      cases line with
      | blank => exact ih _ _
      | opcode n => exact ih _ _
      | status flags => exact ih _ _
      | step n controls => exact congrArg (List.cons _) (ih _ _)

/-! ## Recovery -/

/-- A table with one word for each key of the ROM, and words with bits for the control paths. -/
structure TableFits (program : MicrocodeProgram) : Prop where
  keysDistinct : (program.table.map Prod.fst).Nodup
  keysFit : KeysFit program
  wordsFit : WordsFit program

/-- The names by which the dumps of two programs are read. -/
structure SameNames (other program : MicrocodeProgram) : Prop where
  controlPaths : other.controlPaths = program.controlPaths
  statusBits : other.statusBits = program.statusBits

/-- Each text determines the part of the table that it is a dump of. -/
structure Recoverable (program : MicrocodeProgram) : Prop where
  ofProgram : ∀ other, SameNames other program → TableFits other →
    dumpProgram other = dumpProgram program → other.table.Perm program.table
  ofProgramYaml : ∀ other, SameNames other program → TableFits other →
    dumpProgramYaml other = dumpProgramYaml program → other.table.Perm program.table
  ofInstruction : ∀ opcode other, SameNames other program → TableFits other →
    dumpInstruction other opcode = dumpInstruction program opcode →
      (restricted other opcode).Perm (restricted program opcode)
  ofInstructionYaml : ∀ opcode other, SameNames other program → TableFits other →
    dumpInstructionYaml other opcode = dumpInstructionYaml program opcode →
      (restricted other opcode).Perm (restricted program opcode)

section Recovery

variable {other : MicrocodeProgram}

theorem entryOf_eq (hnames : SameNames other program) : entryOf other = entryOf program := by
  funext e
  unfold entryOf decodeStatusBits decodeControlWord
  rw [hnames.controlPaths, hnames.statusBits]

theorem legible_of_sameNames (hnames : SameNames other program) (h : Legible program) :
    Legible other := by
  refine ⟨⟨?_, ?_⟩, ?_, ?_, ?_⟩
  · rw [hnames.statusBits]
    exact h.statusNamed
  · rw [hnames.statusBits]
    exact h.statusDistinct
  · rw [hnames.statusBits]
    exact h.statusName
  · rw [hnames.controlPaths]
    exact h.pathsDistinct
  · rw [hnames.controlPaths]
    exact h.pathName

/-- Tables that are listed as the same entries are the same. -/
theorem perm_of_entryOf (h : Legible program) {l l' : List (Nat × ControlWord)} (hl : l.Nodup)
    (hl' : l'.Nodup) (hfit : ∀ e ∈ l, e.2.toNat < 2 ^ program.controlPaths.length)
    (hfit' : ∀ e ∈ l', e.2.toNat < 2 ^ program.controlPaths.length)
    (hperm : (l.map (entryOf program)).Perm (l'.map (entryOf program))) : l.Perm l' := by
  rw [List.perm_ext_iff_of_nodup hl hl']
  intro e
  constructor
  · intro he
    rcases List.mem_map.mp (hperm.mem_iff.mp (List.mem_map_of_mem he)) with ⟨e', he', heq⟩
    rw [← entryOf_inj h (hfit' e' he') (hfit e he) heq]
    exact he'
  · intro he
    rcases List.mem_map.mp (hperm.mem_iff.mpr (List.mem_map_of_mem he)) with ⟨e', he', heq⟩
    rw [← entryOf_inj h (hfit e' he') (hfit' e he) heq]
    exact he'

/-- The sorted keys of a part of a table that fits. -/
structure Part (program : MicrocodeProgram) (keys : List MicrocodeKey)
    (l : List (Nat × ControlWord)) : Prop where
  own : (keys.map (ownEntry program)).Perm (l.map (entryOf program))
  nodup : l.Nodup
  wordsFit : ∀ e ∈ l, e.2.toNat < 2 ^ program.controlPaths.length

theorem part_program (h : TableFits program) :
    Part program (programKeys program) program.table where
  own := ownEntry_programKeys h.keysDistinct h.keysFit
  nodup := List.Nodup.of_map Prod.fst h.keysDistinct
  wordsFit := h.wordsFit

theorem part_instruction (h : TableFits program) (opcode : Byte) :
    Part program (instructionKeys program opcode) (restricted program opcode) where
  own := ownEntry_instructionKeys h.keysDistinct h.keysFit opcode
  nodup := (List.Nodup.of_map Prod.fst h.keysDistinct).filter _
  wordsFit e he := h.wordsFit e (List.mem_filter.mp he).1

theorem Part.eq_nil {l : List (Nat × ControlWord)} (h : Part program [] l) : l = [] := by
  have hlength := h.own.length_eq
  rw [List.map_nil, List.length_map] at hlength
  exact List.eq_nil_of_length_eq_zero hlength.symm

section Parts

variable {keys keys' : List MicrocodeKey} {l l' : List (Nat × ControlWord)} {currentOpcode : Byte}
  {opcode : Option Nat} {lines lines' : List DumpLine}

/-- A loop that writes the entries of a faithful dump was given the same part of the table. -/
theorem perm_of_entries (h : Legible program) (hnames : SameNames other program)
    (hpart : Part program keys l) (hpart' : Part other keys' l')
    (hopcode : ShowsOpcode opcode currentOpcode)
    (hlines' : programLoop other currentOpcode 255 keys' = some lines')
    (hperm : (entries opcode none lines).Perm (l.map (entryOf program)))
    (heq : entries opcode none lines' = entries opcode none lines) : l'.Perm l := by
  have hheaded : ∀ e ∈ entries opcode none lines', e.Headed := by
    rw [heq]
    exact fun e he => entryOf_headed l e (hperm.mem_iff.mp he)
  have hown := hpart'.own
  rw [← heq, entries_eq_of_headed hlines' hopcode (.inr ⟨rfl, rfl⟩) hheaded] at hperm
  rw [entryOf_eq hnames] at hown
  have hfit := hpart'.wordsFit
  rw [hnames.controlPaths] at hfit
  exact perm_of_entryOf h hpart'.nodup hpart.nodup hfit hpart.wordsFit (hown.symm.trans hperm)

end Parts

/-- A way to write the lines of a dump from which its entries can be read. -/
structure IsText (lineText : DumpLine → List String) : Prop where
  newline : ∀ line, LegibleLine line → ∀ l ∈ lineText line, '\n' ∉ l.toList
  entries_eq : ∀ lines lines' : List DumpLine, (∀ line ∈ lines, LegibleLine line) →
    (∀ line ∈ lines', LegibleLine line) → lines.flatMap lineText = lines'.flatMap lineText →
      ∀ opcode status, entries opcode status lines = entries opcode status lines'

theorem isText_plain : IsText plainText where
  newline _ := plainText_newline
  entries_eq lines lines' h h' heq opcode status := by
    have hblock : ∀ line, LegibleLine line → ∃ head body, plainText line = head :: body ∧
        (fun _ : String => true) head = true ∧ ∀ l ∈ body, (fun _ : String => true) l = false := by
      intro line _
      cases line <;> exact ⟨_, [], rfl, rfl, fun l hl => by cases hl⟩
    rw [flatMap_block_inj _ LegibleLine hblock (fun line line' => plainText_inj) h h' heq]

theorem isText_yaml {indent : String} {opcodeHeader : Nat → String}
    (h : IsOpcodeHeader indent opcodeHeader) : IsText (yamlText indent opcodeHeader) where
  newline _ := yamlText_newline h
  entries_eq lines lines' _ _ heq opcode status := by
    rw [← entries_filter, yamlLines_inj h heq, entries_filter]

section Texts

variable {lineText : DumpLine → List String} {keys keys' : List MicrocodeKey}
  {l l' : List (Nat × ControlWord)} {currentOpcode : Byte} {opcode : Option Nat}
  {lines lines' : List DumpLine}

theorem newline_flatMap (htext : IsText lineText) (h : ∀ line ∈ lines, LegibleLine line) :
    ∀ l ∈ lines.flatMap lineText, '\n' ∉ l.toList := by
  intro l hl
  rcases List.mem_flatMap.mp hl with ⟨line, hline, hl⟩
  exact htext.newline line (h line hline) l hl

/-- A dump without first lines. -/
theorem perm_of_text (h : Legible program) (hnames : SameNames other program)
    (hpart : Part program keys l) (hpart' : Part other keys' l') (htext : IsText lineText)
    (hopcode : ShowsOpcode opcode currentOpcode)
    (hlines : programLoop program currentOpcode 255 keys = some lines)
    (hlines' : programLoop other currentOpcode 255 keys' = some lines')
    (hperm : (entries opcode none lines).Perm (l.map (entryOf program)))
    (heq : text (lines'.flatMap lineText) = text (lines.flatMap lineText)) : l'.Perm l := by
  have hlegible := legible_programLoop h hlines
  have hlegible' := legible_programLoop (legible_of_sameNames hnames h) hlines'
  have hsame := text_inj (newline_flatMap htext hlegible') (newline_flatMap htext hlegible) heq
  exact perm_of_entries h hnames hpart hpart' hopcode hlines' hperm
    (htext.entries_eq lines' lines hlegible' hlegible hsame opcode none)

/-- A dump that begins with a line of its own, and writes another line where there are no keys. -/
def headedText (lineText : DumpLine → List String) (noKeys first : String) (keys : List MicrocodeKey)
    (lines : Option (List DumpLine)) : Option String :=
  if keys = [] then some (text [noKeys])
  else lines.map fun lines => text (first :: lines.flatMap lineText)

theorem perm_of_headedText (h : Legible program) (hnames : SameNames other program)
    (hpart : Part program keys l) (hpart' : Part other keys' l') (htext : IsText lineText)
    (hopcode : ShowsOpcode opcode currentOpcode) {noKeys first : String} (hne : noKeys ≠ first)
    (hnoKeys : '\n' ∉ noKeys.toList) (hfirst : '\n' ∉ first.toList)
    (hlines : programLoop program currentOpcode 255 keys = some lines)
    (hperm : (entries opcode none lines).Perm (l.map (entryOf program)))
    (heq : headedText lineText noKeys first keys' (programLoop other currentOpcode 255 keys') =
      headedText lineText noKeys first keys (programLoop program currentOpcode 255 keys)) :
    l'.Perm l := by
  have hlegible := legible_programLoop h hlines
  -- the line for no keys is not the first one of another text
  have hother : ∀ ls : List DumpLine, (∀ line ∈ ls, LegibleLine line) →
      text (first :: ls.flatMap lineText) ≠ text [noKeys] := by
    intro ls hls hsame
    have hlist := text_inj (List.forall_mem_cons.mpr ⟨hfirst, newline_flatMap htext hls⟩)
      (List.forall_mem_singleton.mpr hnoKeys) hsame
    exact hne (List.cons.inj hlist).1.symm
  unfold headedText at heq
  rw [hlines] at heq
  by_cases hkeys' : keys' = []
  · rw [if_pos hkeys'] at heq
    by_cases hkeys : keys = []
    · rw [hkeys] at hpart
      rw [hkeys'] at hpart'
      rw [hpart.eq_nil, hpart'.eq_nil]
    · rw [if_neg hkeys] at heq
      exact absurd (Option.some.inj heq).symm (hother lines hlegible)
  · rw [if_neg hkeys'] at heq
    cases hlines' : programLoop other currentOpcode 255 keys' with
    | none =>
        rw [hlines'] at heq
        split at heq <;> cases heq
    | some lines' =>
        rw [hlines'] at heq
        have hlegible' := legible_programLoop (legible_of_sameNames hnames h) hlines'
        by_cases hkeys : keys = []
        · rw [if_pos hkeys] at heq
          exact absurd (Option.some.inj heq) (hother lines' hlegible')
        · rw [if_neg hkeys] at heq
          have hlist := text_inj
            (List.forall_mem_cons.mpr ⟨hfirst, newline_flatMap htext hlegible'⟩)
            (List.forall_mem_cons.mpr ⟨hfirst, newline_flatMap htext hlegible⟩)
            (Option.some.inj heq)
          exact perm_of_entries h hnames hpart hpart' hopcode hlines' hperm
            (htext.entries_eq lines' lines hlegible' hlegible (List.cons.inj hlist).2 opcode none)

end Texts

end Recovery

/-- The dump of an instruction begins with its opcode. -/
def instructionText (lineText : DumpLine → List String) (before noKeys : String)
    (program : MicrocodeProgram) (opcode : Byte) : Option String :=
  headedText lineText (before ++ toString opcode.toNat ++ noKeys)
    (before ++ toString opcode.toNat ++ ":") (instructionKeys program opcode)
    (programLoop program opcode 255 (instructionKeys program opcode))

theorem dumpInstruction_eq (program : MicrocodeProgram) (opcode : Byte) :
    dumpInstruction program opcode =
      instructionText plainText "opcode " ": (no microcode)" program opcode := by
  unfold instructionText
  rw [← instructionLoop_eq fun key hkey => (mem_instructionKeys.mp hkey).2]
  rfl

theorem dumpInstructionYaml_eq (program : MicrocodeProgram) (opcode : Byte) :
    dumpInstructionYaml program opcode =
      instructionText instructionYamlText "opcode_" ": null" program opcode := by
  unfold instructionText
  rw [← instructionLoop_eq fun key hkey => (mem_instructionKeys.mp hkey).2]
  rfl

theorem perm_of_instructionText (h : Legible program) (hfit : TableFits program)
    (hfaithful : Faithful program) {other : MicrocodeProgram} (hnames : SameNames other program)
    (hfit' : TableFits other) {lineText : DumpLine → List String} (htext : IsText lineText)
    {before noKeys : String} (hne : noKeys ≠ ":") (hbefore : '\n' ∉ before.toList)
    (hnoKeys : '\n' ∉ noKeys.toList) {opcode : Byte}
    (heq : instructionText lineText before noKeys other opcode =
      instructionText lineText before noKeys program opcode) :
    (restricted other opcode).Perm (restricted program opcode) := by
  rcases hfaithful.ofInstruction opcode with ⟨lines, hlines, hperm⟩
  unfold instructionLines at hlines
  rw [instructionLoop_eq fun key hkey => (mem_instructionKeys.mp hkey).2] at hlines
  have hdigit : '\n' ∉ (toString opcode.toNat).toList := notMem_toString (by decide) _
  refine perm_of_headedText h hnames (part_instruction hfit opcode)
    (part_instruction hfit' opcode) htext (.inl rfl) ?_ ?_ ?_ hlines hperm heq
  · intro hsame
    have hchars := congrArg String.toList hsame
    simp only [String.toList_append, List.append_cancel_left_eq] at hchars
    exact hne (String.toList_inj.mp hchars)
  · exact notMem_append (notMem_append hbefore hdigit) hnoKeys
  · exact notMem_append (notMem_append hbefore hdigit) (by decide)

theorem recoverable_of_faithful (h : Legible program) (hfit : TableFits program)
    (hfaithful : Faithful program) : Recoverable program := by
  rcases hfaithful.ofProgram with ⟨lines, hlines, hperm⟩
  have hshows : ShowsOpcode none 255 := .inr ⟨rfl, rfl⟩
  constructor
  · intro other hnames hfit' heq
    unfold dumpProgram at heq
    rw [hlines, Option.map_some] at heq
    rcases Option.map_eq_some_iff.mp heq with ⟨lines', hlines', htext⟩
    exact perm_of_text h hnames (part_program hfit) (part_program hfit') isText_plain hshows hlines
      hlines' hperm htext
  · intro other hnames hfit' heq
    exact perm_of_headedText h hnames (part_program hfit) (part_program hfit')
      (isText_yaml isOpcodeHeader_program) hshows (by decide) (by decide) (by decide) hlines hperm heq
  · intro opcode other hnames hfit' heq
    rw [dumpInstruction_eq, dumpInstruction_eq] at heq
    exact perm_of_instructionText h hfit hfaithful hnames hfit' isText_plain (by decide) (by decide)
      (by decide) heq
  · intro opcode other hnames hfit' heq
    rw [dumpInstructionYaml_eq, dumpInstructionYaml_eq] at heq
    exact perm_of_instructionText h hfit hfaithful hnames hfit'
      (isText_yaml isOpcodeHeader_instruction) (by decide) (by decide) (by decide) heq

/-! ## Words with other bits -/

/-- The bits of a word that stand for controls. -/
def strip (program : MicrocodeProgram) (word : ControlWord) : ControlWord :=
  BitVec.ofNat 128 (word.toNat % 2 ^ program.controlPaths.length)

/-- The program without the bits that no dump shows. -/
def stripped (program : MicrocodeProgram) : MicrocodeProgram :=
  { program with table := program.table.map fun e => (e.1, strip program e.2) }

theorem toNat_strip (word : ControlWord) :
    (strip program word).toNat = word.toNat % 2 ^ program.controlPaths.length := by
  unfold strip
  rw [BitVec.toNat_ofNat]
  exact Nat.mod_eq_of_lt ((Nat.mod_le _ _).trans_lt word.isLt)

theorem decodeControlWord_strip (word : ControlWord) :
    decodeControlWord program (strip program word) = decodeControlWord program word := by
  unfold decodeControlWord
  refine congrArg _ (List.filter_congr fun c hc => ?_)
  have hlt : c.2 < program.controlPaths.length := by
    have hget := List.mem_zipIdx_iff_getElem?.mp hc
    exact (List.getElem?_eq_some_iff.mp hget).1
  show (strip program word).toNat.testBit c.2 = word.toNat.testBit c.2
  rw [toNat_strip, Nat.testBit_mod_two_pow, decide_eq_true hlt, Bool.true_and]

theorem dumpKey_stripped (currentStatus : Byte) (key : MicrocodeKey) :
    dumpKey (stripped program) currentStatus key = dumpKey program currentStatus key := by
  have hlookup : (stripped program).table.lookup (encodeKey key) =
      (program.table.lookup (encodeKey key)).map (strip program) :=
    Table.lookup_map_value _ _ _
  unfold dumpKey
  rw [hlookup]
  cases program.table.lookup (encodeKey key) with
  | none => rfl
  | some word =>
      have hcontrols : decodeControlWord (stripped program) (strip program word) =
          decodeControlWord program word := decodeControlWord_strip word
      show some (_ ++ [DumpLine.step _ (decodeControlWord (stripped program) _)]) = some _
      rw [hcontrols]
      rfl

theorem programLoop_stripped (currentOpcode currentStatus : Byte) (keys : List MicrocodeKey) :
    programLoop (stripped program) currentOpcode currentStatus keys =
      programLoop program currentOpcode currentStatus keys := by
  induction keys generalizing currentOpcode currentStatus with
  | nil => rfl
  | cons key keys ih =>
      unfold programLoop
      simp only [dumpKey_stripped, ih]

/-- A program and the same without those bits have one dump. -/
theorem dumpProgram_stripped : dumpProgram (stripped program) = dumpProgram program := by
  have hkeys : programKeys (stripped program) = programKeys program := by
    unfold programKeys keys stripped
    rw [List.map_map]
    rfl
  unfold dumpProgram programLines
  rw [hkeys, programLoop_stripped]

theorem tableFits_stripped (hkeys : (program.table.map Prod.fst).Nodup)
    (hfit : KeysFit program) : TableFits (stripped program) := by
  refine ⟨?_, ?_, ?_⟩
  · unfold stripped
    rw [List.map_map]
    exact hkeys
  · intro e he
    obtain ⟨e', he', rfl⟩ := List.mem_map.mp he
    exact hfit e' he'
  · intro e he
    obtain ⟨e', -, rfl⟩ := List.mem_map.mp he
    show (strip program e'.2).toNat < _
    rw [toNat_strip]
    exact Nat.mod_lt _ (Nat.two_pow_pos _)

/-- A word with other bits cannot be recovered. -/
theorem wordsFit_of_recoverable (hkeys : (program.table.map Prod.fst).Nodup)
    (hfit : KeysFit program) (h : Recoverable program) : WordsFit program := by
  have hstripped := tableFits_stripped hkeys hfit
  have hperm := h.ofProgram (stripped program) ⟨rfl, rfl⟩ hstripped dumpProgram_stripped
  intro e he
  exact hstripped.wordsFit e (hperm.mem_iff.mpr he)

/-! ## Faithful dumps -/

/-- The dumps list the entries below their own headers, and where the status bits are named
distinctly each text determines what it lists. -/
structure FaithfulDumps (program : MicrocodeProgram) : Prop where
  faithful : Faithful program
  recoverable : NamedDistinctly program → Recoverable program

/-- A table with one control, under the names of the processor's status bits. -/
def haltProgram (keys : List MicrocodeKey) : MicrocodeProgram where
  table := keys.map fun key => (encodeKey key, 1)
  controlPaths := ["halt"]
  statusBits := [⟨"negative", 7⟩, ⟨"overflow", 6⟩, ⟨"unused", 5⟩, ⟨"break", 4⟩, ⟨"decimal", 3⟩,
    ⟨"interrupt_disable", 2⟩, ⟨"zero", 1⟩, ⟨"carry", 0⟩]

theorem legible_haltProgram (keys : List MicrocodeKey) : Legible (haltProgram keys) := by
  have hnone : Legible (haltProgram []) := ⟨⟨by decide, by decide⟩, by decide, by decide, by decide⟩
  have hsame : SameNames (haltProgram keys) (haltProgram []) := ⟨rfl, rfl⟩
  exact legible_of_sameNames hsame hnone

/-- A table with one control, and a flag that is called as the status without flags. -/
def defaultProgram (status : Byte) : MicrocodeProgram where
  table := [(encodeKey ⟨1, 0, status⟩, 1)]
  controlPaths := ["halt"]
  statusBits := [⟨"negative", 7⟩, ⟨"overflow", 6⟩, ⟨"unused", 5⟩, ⟨"break", 4⟩, ⟨"decimal", 3⟩,
    ⟨"interrupt_disable", 2⟩, ⟨"zero", 1⟩, ⟨"default", 0⟩]

/-- Distinct names that cannot be told apart in the text. -/
theorem not_recoverable_default :
    NamedDistinctly (defaultProgram 0) ∧ WellHeaded (defaultProgram 0) ∧
      WordsFit (defaultProgram 0) ∧ ¬Recoverable (defaultProgram 0) := by
  refine ⟨⟨by decide, by decide⟩, ⟨by unfold KeysFit; decide, by decide, by decide⟩,
    by unfold WordsFit; decide, fun h => ?_⟩
  have hfits : TableFits (defaultProgram 1) :=
    ⟨by decide, by unfold KeysFit; decide, by unfold WordsFit; decide⟩
  have hsame : dumpProgram (defaultProgram 1) = dumpProgram (defaultProgram 0) := by
    decide +kernel
  have hperm := h.ofProgram (defaultProgram 1) ⟨rfl, rfl⟩ hfits hsame
  exact absurd (hperm.mem_iff.mp List.mem_cons_self) (by decide)

end Irata2.Microcode.Decoder
