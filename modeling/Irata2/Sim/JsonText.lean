import Irata2.Sim.Json

/-!
# Texts that the JSON parser reads

`Reads text v` says that the parser, in front of `text`, returns `v` and stops behind it.  An object
or an array is read when its members or elements are.
-/

namespace Irata2.Sim.JsonParser

open Library

/-! ## White space -/

def Blank (w : Text) : Prop := ∀ ch ∈ w, ch = ' ' ∨ ch = '\t' ∨ ch = '\n' ∨ ch = '\r'

theorem skipWhitespace_append {w : Text} (hw : Blank w) (text : Text) :
    skipWhitespace (w ++ text) = skipWhitespace text := by
  induction w with
  | nil => rfl
  | cons ch w ih =>
      show (if _ then skipWhitespace (w ++ text) else _) = _
      rw [if_pos (hw ch List.mem_cons_self), ih fun c hc => hw c (List.mem_cons_of_mem _ hc)]

theorem skipWhitespace_cons {ch : Char}
    (h : ¬(ch = ' ' ∨ ch = '\t' ∨ ch = '\n' ∨ ch = '\r')) (text : Text) :
    skipWhitespace (ch :: text) = ch :: text := if_neg h

theorem skipWhitespace_skipWhitespace (text : Text) :
    skipWhitespace (skipWhitespace text) = skipWhitespace text := by
  induction text with
  | nil => rfl
  | cons ch text ih =>
      by_cases h : ch = ' ' ∨ ch = '\t' ∨ ch = '\n' ∨ ch = '\r'
      · have hskip : skipWhitespace (ch :: text) = skipWhitespace text := if_pos h
        rw [hskip, ih]
      · rw [skipWhitespace_cons h, skipWhitespace_cons h]

theorem length_skipWhitespace (text : Text) : (skipWhitespace text).length ≤ text.length := by
  induction text with
  | nil => exact Nat.le_refl _
  | cons ch text ih =>
      show (if _ then skipWhitespace text else _).length ≤ _
      split
      · exact Nat.le_succ_of_le ih
      · exact Nat.le_refl _

theorem parseValue_skipWhitespace (fuel : Nat) (text : Text) :
    parseValue fuel (skipWhitespace text) = parseValue fuel text := by
  cases fuel with
  | zero => rfl
  | succ fuel =>
      unfold parseValue
      rw [skipWhitespace_skipWhitespace]

theorem parseMember_skipWhitespace (value : Text → Except LoadError (JsonValue × Text))
    (text : Text) : parseMember value (skipWhitespace text) = parseMember value text := by
  unfold parseMember
  rw [skipWhitespace_skipWhitespace]

/-! ## Values -/

/-- What follows does not go on with a number. -/
def NoDigit (rest : Text) : Prop := ∀ ch, rest.head? = some ch → ch.isDigit = false

/-- The parser reads `v` from `text`, with any fuel beyond the length of what it sees. -/
def Reads (text : Text) (v : JsonValue) : Prop :=
  ∀ fuel rest, (text ++ rest).length < fuel → NoDigit rest →
    parseValue fuel (text ++ rest) = .ok (v, rest)

theorem Reads.blank {w text : Text} {v : JsonValue} (hw : Blank w) (h : Reads text v) :
    Reads (w ++ text) v := by
  intro fuel rest hfuel hrest
  rw [List.append_assoc] at hfuel ⊢
  rw [← parseValue_skipWhitespace, skipWhitespace_append hw, parseValue_skipWhitespace]
  rw [List.length_append] at hfuel
  exact h fuel rest (by omega) hrest

/-- A value that opens with no letter is none of the three words. -/
theorem parseValue_cons (fuel : Nat) {ch : Char} (text : Text)
    (hspace : ¬(ch = ' ' ∨ ch = '\t' ∨ ch = '\n' ∨ ch = '\r'))
    (hword : ch ≠ 'n' ∧ ch ≠ 't' ∧ ch ≠ 'f') :
    parseValue (fuel + 1) (ch :: text) =
      if ch = '{' then parseObject (parseValue fuel) fuel text
      else if ch = '[' then parseArray (parseValue fuel) fuel text
      else if ch = '"' then do
        let (string, rest) ← parseString (ch :: text)
        pure (.string string, rest)
      else if ch = '-' ∨ ch.isDigit then do
        let (number, rest) ← parseNumber (ch :: text)
        pure (.number number, rest)
      else .error (.sim "unexpected character in JSON") := by
  have hnot : ∀ (c : Char) (token : Text), ch ≠ c → matchToken (c :: token) (ch :: text) = none := by
    intro c token hne
    unfold matchToken
    have hb : (c == ch) = false := beq_eq_false_iff_ne.mpr hne.symm
    rw [List.isPrefixOf_cons_cons, hb]
    rfl
  conv_lhs => unfold parseValue
  rw [skipWhitespace_cons hspace]
  have hnull : matchToken "null".toList (ch :: text) = none := hnot 'n' "ull".toList hword.1
  have htrue : matchToken "true".toList (ch :: text) = none := hnot 't' "rue".toList hword.2.1
  have hfalse : matchToken "false".toList (ch :: text) = none := hnot 'f' "alse".toList hword.2.2
  simp only [hnull, htrue, hfalse]
  rfl

/-! ### Strings -/

/-- The parser reads the characters `value` from what stands between two quotes. -/
def ReadsBody (body value : Text) : Prop :=
  ∀ out rest, parseStringBody (body ++ rest) out = parseStringBody rest (out ++ value)

theorem ReadsBody.nil : ReadsBody [] [] := by
  intro out rest
  rw [List.append_nil]
  rfl

theorem ReadsBody.append {b₁ b₂ v₁ v₂ : Text} (h₁ : ReadsBody b₁ v₁) (h₂ : ReadsBody b₂ v₂) :
    ReadsBody (b₁ ++ b₂) (v₁ ++ v₂) := by
  intro out rest
  rw [List.append_assoc, h₁, h₂, List.append_assoc]

theorem parseStringBody_quote (rest out : Text) :
    parseStringBody ('"' :: rest) out = .ok (out, rest) := by
  conv_lhs => unfold parseStringBody
  exact if_pos rfl

theorem parseString_of {body value : Text} (h : ReadsBody body value) (rest : Text) :
    parseString ('"' :: body ++ '"' :: rest) = .ok (value, rest) := by
  show parseStringBody (body ++ '"' :: rest) [] = _
  rw [h, parseStringBody_quote]
  rfl

theorem reads_string {body value : Text} (h : ReadsBody body value) :
    Reads ('"' :: body ++ ['"']) (.string value) := by
  intro fuel rest hfuel _
  cases fuel with
  | zero => exact absurd hfuel (Nat.not_lt_zero _)
  | succ fuel =>
      have hstring : parseString ('"' :: (body ++ ['"'] ++ rest)) = .ok (value, rest) := by
        rw [List.append_assoc]
        exact parseString_of h rest
      show parseValue (fuel + 1) ('"' :: (body ++ ['"'] ++ rest)) = _
      rw [parseValue_cons fuel _ (by decide) (by decide), if_neg (by decide), if_neg (by decide),
        if_pos rfl, hstring]
      rfl

/-! ### Numbers -/

theorem isDigit_digitChar {d : Nat} (hd : d < 10) : d.digitChar.isDigit = true := by
  interval_cases d <;> rfl

theorem isDigit_of_mem {n : Nat} {ch : Char} (h : ch ∈ Nat.toDigits 10 n) : ch.isDigit = true := by
  rcases Digits.exists_digit_of_mem (by decide) h with ⟨d, hd, rfl⟩
  exact isDigit_digitChar hd

/-- The digits of a number are all the digits in front of what follows. -/
theorem takeWhile_digits {digits rest : Text} (h : ∀ ch ∈ digits, ch.isDigit = true)
    (hrest : NoDigit rest) :
    (digits ++ rest).takeWhile Char.isDigit = digits ∧
      (digits ++ rest).dropWhile Char.isDigit = rest := by
  have hnil : rest.takeWhile Char.isDigit = [] ∧ rest.dropWhile Char.isDigit = rest := by
    cases rest with
    | nil => exact ⟨rfl, rfl⟩
    | cons ch rest =>
        have hno : ch.isDigit = false := hrest ch rfl
        rw [List.takeWhile_cons, List.dropWhile_cons, hno]
        exact ⟨rfl, rfl⟩
  rw [List.takeWhile_append_of_pos h, List.dropWhile_append_of_pos h, hnil.1, hnil.2,
    List.append_nil]
  exact ⟨rfl, rfl⟩

/-- A number below the bound of an `int64_t` is read as it is written. -/
theorem reads_number {n : Nat} (hn : n < 2 ^ 63) : Reads (Nat.toDigits 10 n) (.number n) := by
  intro fuel rest hfuel hrest
  cases fuel with
  | zero => exact absurd hfuel (Nat.not_lt_zero _)
  | succ fuel =>
      rcases takeWhile_digits (fun _ h => isDigit_of_mem (n := n) h) hrest with ⟨htake, hdrop⟩
      have hvalue := Digits.value_toDigits (b := 10) (by decide) (by decide) n
      have hne : Nat.toDigits 10 n ≠ [] := Nat.toDigits_ne_nil
      have hdigits : ∀ ch ∈ Nat.toDigits 10 n, ch.isDigit = true := fun _ h => isDigit_of_mem h
      cases hd : Nat.toDigits 10 n with
      | nil => exact absurd hd hne
      | cons ch digits =>
          rw [hd] at htake hdrop hvalue hdigits
          have hdigit := hdigits ch List.mem_cons_self
          have hch : ∀ c : Char, c.isDigit = false → ch ≠ c := by
            intro c hc heq
            rw [heq, hc] at hdigit
            cases hdigit
          have hminus : (peek (ch :: digits ++ rest) == '-') = false :=
            beq_eq_false_iff_ne.mpr (hch '-' rfl)
          have hstoll : stoll false (ch :: digits) = .ok (n : Int) := by
            unfold stoll
            rw [hvalue, if_neg Bool.false_ne_true, if_neg (by omega)]
          have hnumber : parseNumber (ch :: digits ++ rest) = .ok ((n : Int), rest) := by
            unfold parseNumber
            simp only [hminus, Bool.false_eq_true, if_false, htake, hdrop, hstoll]
            rfl
          show parseValue (fuel + 1) (ch :: (digits ++ rest)) = _
          rw [parseValue_cons fuel _ ?_ ⟨hch _ rfl, hch _ rfl, hch _ rfl⟩,
            if_neg (hch _ rfl), if_neg (hch _ rfl), if_neg (hch _ rfl), if_pos (.inr hdigit)]
          · show (parseNumber (ch :: digits ++ rest) >>= _) = _
            rw [hnumber]
            rfl
          · rintro (h | h | h | h) <;> exact hch _ rfl h

/-! ## Objects -/

/-- The parser reads a member from `text`. -/
def ReadsMember (text key : Text) (v : JsonValue) : Prop :=
  ∀ fuel rest, (text ++ rest).length < fuel → NoDigit rest →
    parseMember (parseValue fuel) (text ++ rest) = .ok ((key, v), rest)

theorem ReadsMember.blank {w text key : Text} {v : JsonValue} (hw : Blank w)
    (h : ReadsMember text key v) : ReadsMember (w ++ text) key v := by
  intro fuel rest hfuel hrest
  rw [List.append_assoc] at hfuel ⊢
  rw [← parseMember_skipWhitespace, skipWhitespace_append hw, parseMember_skipWhitespace]
  rw [List.length_append] at hfuel
  exact h fuel rest (by omega) hrest

theorem readsMember {body key text : Text} {v : JsonValue} (hkey : ReadsBody body key)
    (h : Reads text v) : ReadsMember ('"' :: body ++ '"' :: ':' :: text) key v := by
  intro fuel rest hfuel hrest
  have htext : '"' :: body ++ '"' :: ':' :: text ++ rest =
      '"' :: body ++ '"' :: (':' :: (text ++ rest)) := by
    rw [List.append_assoc]
    rfl
  rw [htext] at hfuel ⊢
  have hvalue : parseValue fuel (text ++ rest) = .ok (v, rest) := by
    apply h fuel rest _ hrest
    simp only [List.length_append, List.length_cons] at hfuel ⊢
    omega
  have hspace : skipWhitespace ('"' :: body ++ '"' :: (':' :: (text ++ rest))) =
      '"' :: body ++ '"' :: (':' :: (text ++ rest)) :=
    skipWhitespace_cons (by decide) _
  have hcolon : consume ':' (skipWhitespace (':' :: (text ++ rest))) = .ok (text ++ rest) := by
    rw [skipWhitespace_cons (by decide)]
    rfl
  unfold parseMember
  rw [hspace, parseString_of hkey]
  simp only [bind, Except.bind, hcolon, hvalue]
  rfl

/-- A member opens with a quote. -/
theorem peek_of_readsMember {text key : Text} {v : JsonValue} (h : ReadsMember text key v)
    {rest : Text} (hrest : NoDigit rest) : peek (skipWhitespace (text ++ rest)) = '"' := by
  have hmember := h ((text ++ rest).length + 1) rest (Nat.lt_succ_self _) hrest
  unfold parseMember parseString at hmember
  by_contra hpeek
  have hconsume : consume '"' (skipWhitespace (text ++ rest)) =
      .error (.sim "unexpected JSON token") := if_pos hpeek
  rw [hconsume] at hmember
  cases hmember

/-- A run of members, each but the last followed by a comma, up to the closing brace. -/
inductive Members : Text → List (Text × JsonValue) → Prop
  | last {text key w : Text} {v : JsonValue} (h : ReadsMember text key v) (hw : Blank w) :
      Members (text ++ (w ++ ['}'])) [(key, v)]
  | cons {text key more : Text} {v : JsonValue} {members : List (Text × JsonValue)}
      (h : ReadsMember text key v) (hmore : Members more members) :
      Members (text ++ (',' :: more)) ((key, v) :: members)

theorem noDigit_cons {ch : Char} (h : ch.isDigit = false) (rest : Text) : NoDigit (ch :: rest) := by
  intro c hc
  cases hc
  exact h

theorem noDigit_blank {w : Text} (hw : Blank w) {ch : Char} (h : ch.isDigit = false)
    (rest : Text) : NoDigit (w ++ ch :: rest) := by
  cases w with
  | nil => exact noDigit_cons h rest
  | cons c w =>
      apply noDigit_cons
      rcases hw c List.mem_cons_self with rfl | rfl | rfl | rfl <;> rfl

theorem Members.blank {w text : Text} {members : List (Text × JsonValue)} (hw : Blank w)
    (h : Members text members) : Members (w ++ text) members := by
  cases h with
  | last h hw' =>
      rw [← List.append_assoc]
      exact .last (h.blank hw) hw'
  | cons h hmore =>
      rw [← List.append_assoc]
      exact .cons (h.blank hw) hmore

/-- The members of an object, behind its opening brace, open with a quote. -/
theorem Members.peek {text : Text} {members : List (Text × JsonValue)} (h : Members text members)
    (rest : Text) : JsonParser.peek (skipWhitespace (text ++ rest)) = '"' := by
  cases h with
  | last h hw =>
      rw [List.append_assoc, List.append_assoc]
      exact peek_of_readsMember h (noDigit_blank hw rfl rest)
  | cons h hmore =>
      rw [List.append_assoc]
      exact peek_of_readsMember h (noDigit_cons rfl _)

theorem parseMembers_of {text : Text} {members : List (Text × JsonValue)}
    (h : Members text members) (depth fuel : Nat) (object : List (Text × JsonValue)) (rest : Text)
    (hdepth : (text ++ rest).length < depth) (hfuel : (text ++ rest).length < fuel) :
    parseMembers (parseValue depth) fuel object (text ++ rest) =
      .ok (OrderedMap.emplaceAll OrderedMap.textBefore object members, rest) := by
  induction h generalizing fuel object with
  | @last text key w v h hw =>
      cases fuel with
      | zero => exact absurd hfuel (Nat.not_lt_zero _)
      | succ fuel =>
          rw [List.append_assoc, List.append_assoc] at hdepth ⊢
          have hmember := h depth (w ++ '}' :: rest) hdepth (noDigit_blank hw rfl rest)
          have hspace : skipWhitespace (w ++ '}' :: rest) = '}' :: rest := by
            rw [skipWhitespace_append hw, skipWhitespace_cons (by decide)]
          unfold parseMembers
          show (parseMember (parseValue depth) (text ++ (w ++ '}' :: rest)) >>= _) = _
          rw [hmember]
          show (if JsonParser.peek (skipWhitespace (w ++ '}' :: rest)) = '}' then _ else _) = _
          rw [hspace, if_pos (show JsonParser.peek ('}' :: rest) = '}' from rfl)]
          rfl
  | @cons text key more v members h hmore ih =>
      cases fuel with
      | zero => exact absurd hfuel (Nat.not_lt_zero _)
      | succ fuel =>
          rw [List.append_assoc] at hdepth hfuel ⊢
          have hmember := h depth (',' :: (more ++ rest)) hdepth (noDigit_cons rfl _)
          have hspace : skipWhitespace (',' :: (more ++ rest)) = ',' :: (more ++ rest) :=
            skipWhitespace_cons (by decide) _
          simp only [List.length_append, List.length_cons, List.cons_append] at hdepth hfuel ih
          unfold parseMembers
          show (parseMember (parseValue depth) (text ++ (',' :: (more ++ rest))) >>= _) = _
          rw [hmember]
          have hcomma : ¬JsonParser.peek (',' :: (more ++ rest)) = '}' := by
            show ¬(',' : Char) = '}'
            decide
          simp only [bind, Except.bind, hspace, if_neg hcomma]
          exact ih fuel _ (by omega) (by omega)

theorem reads_object {text : Text} {members : List (Text × JsonValue)} (h : Members text members) :
    Reads ('{' :: text)
      (.object (OrderedMap.emplaceAll OrderedMap.textBefore [] members)) := by
  intro fuel rest hfuel _
  cases fuel with
  | zero => exact absurd hfuel (Nat.not_lt_zero _)
  | succ fuel =>
      have hlength : (text ++ rest).length < fuel := Nat.lt_of_succ_lt_succ hfuel
      have hmembers : parseMembers (parseValue fuel) fuel [] (skipWhitespace (text ++ rest)) =
          .ok (OrderedMap.emplaceAll OrderedMap.textBefore [] members, rest) := by
        rw [← parseMembers_of h fuel fuel [] rest hlength hlength]
        cases fuel with
        | zero => rfl
        | succ fuel =>
            unfold parseMembers
            rw [parseMember_skipWhitespace]
      show parseValue (fuel + 1) ('{' :: (text ++ rest)) = _
      rw [parseValue_cons fuel _ (by decide) (by decide), if_pos rfl]
      unfold parseObject
      simp only [h.peek rest, hmembers]
      rfl

theorem reads_object_nil {w : Text} (hw : Blank w) : Reads ('{' :: (w ++ ['}'])) (.object []) := by
  intro fuel rest hfuel _
  cases fuel with
  | zero => exact absurd hfuel (Nat.not_lt_zero _)
  | succ fuel =>
      have hspace : skipWhitespace (w ++ ['}'] ++ rest) = '}' :: rest := by
        rw [List.append_assoc, skipWhitespace_append hw]
        exact skipWhitespace_cons (by decide) _
      show parseValue (fuel + 1) ('{' :: (w ++ ['}'] ++ rest)) = _
      rw [parseValue_cons fuel _ (by decide) (by decide), if_pos rfl]
      unfold parseObject
      rw [hspace]
      rfl

/-! ## Arrays -/

/-- A run of elements, each but the last followed by a comma, up to the closing bracket. -/
inductive Elements : Text → List JsonValue → Prop
  | last {text w : Text} {v : JsonValue} (h : Reads text v) (hw : Blank w) :
      Elements (text ++ (w ++ [']'])) [v]
  | cons {text more : Text} {v : JsonValue} {array : List JsonValue}
      (h : Reads text v) (hmore : Elements more array) :
      Elements (text ++ (',' :: more)) (v :: array)

theorem Elements.blank {w text : Text} {array : List JsonValue} (hw : Blank w)
    (h : Elements text array) : Elements (w ++ text) array := by
  cases h with
  | last h hw' =>
      rw [← List.append_assoc]
      exact .last (h.blank hw) hw'
  | cons h hmore =>
      rw [← List.append_assoc]
      exact .cons (h.blank hw) hmore

/-- No value opens with a closing bracket. -/
theorem peek_of_reads {text : Text} {v : JsonValue} (h : Reads text v) {rest : Text}
    (hrest : NoDigit rest) : peek (skipWhitespace (text ++ rest)) ≠ ']' := by
  intro hpeek
  have hvalue := h ((text ++ rest).length + 1) rest (Nat.lt_succ_self _) hrest
  rw [← parseValue_skipWhitespace] at hvalue
  cases hs : skipWhitespace (text ++ rest) with
  | nil =>
      rw [hs] at hpeek
      exact absurd hpeek (by decide)
  | cons ch s =>
      rw [hs] at hpeek hvalue
      have hch : ch = ']' := hpeek
      subst hch
      rw [parseValue_cons _ _ (by decide) (by decide), if_neg (by decide), if_neg (by decide),
        if_neg (by decide), if_neg (by decide)] at hvalue
      cases hvalue

theorem Elements.peek {text : Text} {array : List JsonValue} (h : Elements text array)
    (rest : Text) : JsonParser.peek (skipWhitespace (text ++ rest)) ≠ ']' := by
  cases h with
  | last h hw =>
      rw [List.append_assoc, List.append_assoc]
      exact peek_of_reads h (noDigit_blank hw rfl rest)
  | cons h hmore =>
      rw [List.append_assoc]
      exact peek_of_reads h (noDigit_cons rfl _)

theorem parseElements_of {text : Text} {values : List JsonValue} (h : Elements text values)
    (depth fuel : Nat) (array : List JsonValue) (rest : Text)
    (hdepth : (text ++ rest).length < depth) (hfuel : (text ++ rest).length < fuel) :
    parseElements (parseValue depth) fuel array (text ++ rest) = .ok (array ++ values, rest) := by
  induction h generalizing fuel array with
  | @last text w v h hw =>
      cases fuel with
      | zero => exact absurd hfuel (Nat.not_lt_zero _)
      | succ fuel =>
          rw [List.append_assoc, List.append_assoc] at hdepth ⊢
          have hvalue := h depth (w ++ ']' :: rest) hdepth (noDigit_blank hw rfl rest)
          have hspace : skipWhitespace (w ++ ']' :: rest) = ']' :: rest := by
            rw [skipWhitespace_append hw, skipWhitespace_cons (by decide)]
          unfold parseElements
          show (parseValue depth (text ++ (w ++ ']' :: rest)) >>= _) = _
          rw [hvalue]
          show (if JsonParser.peek (skipWhitespace (w ++ ']' :: rest)) = ']' then _ else _) = _
          rw [hspace, if_pos (show JsonParser.peek (']' :: rest) = ']' from rfl)]
          rfl
  | @cons text more v values h hmore ih =>
      cases fuel with
      | zero => exact absurd hfuel (Nat.not_lt_zero _)
      | succ fuel =>
          rw [List.append_assoc] at hdepth hfuel ⊢
          have hvalue := h depth (',' :: (more ++ rest)) hdepth (noDigit_cons rfl _)
          have hspace : skipWhitespace (',' :: (more ++ rest)) = ',' :: (more ++ rest) :=
            skipWhitespace_cons (by decide) _
          simp only [List.length_append, List.length_cons, List.cons_append] at hdepth hfuel ih
          unfold parseElements
          show (parseValue depth (text ++ (',' :: (more ++ rest))) >>= _) = _
          rw [hvalue]
          have hcomma : ¬JsonParser.peek (',' :: (more ++ rest)) = ']' := by
            show ¬(',' : Char) = ']'
            decide
          simp only [bind, Except.bind, hspace, if_neg hcomma]
          have htail := ih fuel (array ++ [v]) (by omega) (by omega)
          rw [List.append_assoc] at htail
          exact htail

theorem reads_array {text : Text} {values : List JsonValue} (h : Elements text values) :
    Reads ('[' :: text) (.array values) := by
  intro fuel rest hfuel _
  cases fuel with
  | zero => exact absurd hfuel (Nat.not_lt_zero _)
  | succ fuel =>
      have hlength : (text ++ rest).length < fuel := Nat.lt_of_succ_lt_succ hfuel
      have helements : parseElements (parseValue fuel) fuel [] (skipWhitespace (text ++ rest)) =
          .ok (values, rest) := by
        have hall := parseElements_of h fuel fuel [] rest hlength hlength
        rw [List.nil_append] at hall
        rw [← hall]
        cases fuel with
        | zero => rfl
        | succ fuel =>
            unfold parseElements
            rw [parseValue_skipWhitespace]
      show parseValue (fuel + 1) ('[' :: (text ++ rest)) = _
      rw [parseValue_cons fuel _ (by decide) (by decide), if_neg (by decide), if_pos rfl]
      unfold parseArray
      simp only [if_neg (h.peek rest), helements]
      rfl

theorem reads_array_nil {w : Text} (hw : Blank w) : Reads ('[' :: (w ++ [']'])) (.array []) := by
  intro fuel rest hfuel _
  cases fuel with
  | zero => exact absurd hfuel (Nat.not_lt_zero _)
  | succ fuel =>
      have hspace : skipWhitespace (w ++ [']'] ++ rest) = ']' :: rest := by
        rw [List.append_assoc, skipWhitespace_append hw]
        exact skipWhitespace_cons (by decide) _
      show parseValue (fuel + 1) ('[' :: (w ++ [']'] ++ rest)) = _
      rw [parseValue_cons fuel _ (by decide) (by decide), if_neg (by decide), if_pos rfl]
      unfold parseArray
      rw [hspace]
      rfl

/-! ## Documents -/

theorem parse_of_reads {w text : Text} {v : JsonValue} (h : Reads text v) (hw : Blank w) :
    parse (text ++ w) = .ok v := by
  have hrest : NoDigit w := by
    have hcons := noDigit_blank hw (show 'x'.isDigit = false from rfl) []
    intro ch hch
    apply hcons ch
    cases w with
    | nil => cases hch
    | cons c w => exact hch
  have hskip : skipWhitespace w = [] := by
    have hall := skipWhitespace_append hw []
    rw [List.append_nil] at hall
    exact hall
  unfold parse
  rw [parseValue_skipWhitespace, h ((text ++ w).length + 1) w (Nat.lt_succ_self _) hrest]
  show (throwIf (skipWhitespace w ≠ []) _ >>= fun _ => _) = _
  rw [hskip]
  rfl

end Irata2.Sim.JsonParser
