import Irata2.Sim.JsonText

/-!
# What the JSON parser throws

The parser ends on every text.  It throws a `SimError`, except where it meets a number beyond 64
bits: `std::stoll` then throws an exception of its own.
-/

namespace Irata2.Sim

open Library

/-- How a run ends: `large` says that it meets a number beyond 64 bits. -/
def Outcome {α : Type} (x : Except LoadError α) (large : Prop) : Prop :=
  match x with
  | .ok _ => ¬large
  | .error (.sim _) => ¬large
  | .error .outOfRange => large
  | .error .depth => False

theorem Outcome.ok {α : Type} (a : α) : Outcome (.ok a) False := fun h => h

theorem Outcome.sim {α : Type} (message : String) :
    Outcome (.error (.sim message) : Except LoadError α) False := fun h => h

theorem Outcome.congr {α : Type} {x : Except LoadError α} {p q : Prop} (h : Outcome x p)
    (hpq : p ↔ q) : Outcome x q := by
  have heq : p = q := propext hpq
  rw [← heq]
  exact h

theorem Outcome.bind {α β : Type} {x : Except LoadError α} {f : α → Except LoadError β} {p : Prop}
    {q : α → Prop} (hx : Outcome x p) (hf : ∀ a, x = .ok a → Outcome (f a) (q a)) :
    Outcome (x >>= f) (p ∨ ∃ a, x = .ok a ∧ q a) := by
  cases x with
  | ok a =>
      -- the run goes on behind `a`
      apply (hf a rfl).congr
      constructor
      · intro h
        exact .inr ⟨a, rfl, h⟩
      · rintro (h | ⟨b, hb, h⟩)
        · exact absurd h hx
        · cases hb
          exact h
  | error e =>
      have hnone : ¬∃ a, (.error e : Except LoadError α) = .ok a ∧ q a := by
        rintro ⟨a, ha, -⟩
        cases ha
      have hp : Outcome (.error e : Except LoadError β) p := by
        cases e with
        | sim message => exact hx
        | outOfRange => exact hx
        | depth => exact hx
      exact hp.congr (by rw [or_iff_left hnone])

/-- A run all of whose steps meet no such number. -/
theorem Outcome.bind_sim {α β : Type} {x : Except LoadError α} {f : α → Except LoadError β}
    (hx : Outcome x False) (hf : ∀ a, x = .ok a → Outcome (f a) False) :
    Outcome (x >>= f) False := by
  apply (hx.bind hf).congr
  simp only [and_false, exists_false, or_false]

theorem Outcome.throwIf {p : Prop} [Decidable p] (message : String) :
    Outcome (throwIf p (LoadError.sim message)) False := by
  unfold Library.throwIf
  split
  · exact .sim message
  · exact .ok ()

theorem Outcome.foldlM {σ α : Type} {f : σ → α → Except LoadError σ} {l : List α}
    (h : ∀ s, ∀ x ∈ l, Outcome (f s x) False) (s : σ) : Outcome (l.foldlM f s) False := by
  induction l generalizing s with
  | nil => exact .ok s
  | cons x l ih =>
      rw [List.foldlM_cons]
      apply (h s x List.mem_cons_self).bind_sim
      intro s' _
      exact ih (fun s y hy => h s y (List.mem_cons_of_mem _ hy)) s'

theorem Outcome.mapM {α β : Type} {f : α → Except LoadError β} {l : List α}
    (h : ∀ x ∈ l, Outcome (f x) False) : Outcome (l.mapM f) False := by
  induction l with
  | nil => exact .ok []
  | cons x l ih =>
      rw [List.mapM_cons]
      apply (h x List.mem_cons_self).bind_sim
      intro b _
      apply (ih fun y hy => h y (List.mem_cons_of_mem _ hy)).bind_sim
      intro bs _
      exact .ok (b :: bs)

namespace JsonParser

/-! ## Numbers beyond 64 bits -/

/-- The digits of the number in front of a text. -/
def numberDigits (text : Text) : Text :=
  (if peek text == '-' then text.tail else text).takeWhile Char.isDigit

/-- A number stands in front of `text`, and `std::stoll` throws at it. -/
def LargeNumber (text : Text) : Prop :=
  numberDigits text ≠ [] ∧
    stoll (peek text == '-') (numberDigits text) = .error .outOfRange

section Loops

variable (value : Text → Except LoadError (JsonValue × Text)) (large : Text → Prop)

/-- The member in front of a text has a value with such a number. -/
def LargeMember (text : Text) : Prop :=
  ∃ key rest after, parseString (skipWhitespace text) = .ok (key, rest) ∧
    consume ':' (skipWhitespace rest) = .ok after ∧ large after

/-- One of the members from here on has one. -/
inductive LargeMembers : Text → Prop
  | here {text : Text} (h : LargeMember large text) : LargeMembers text
  | next {text rest after : Text} {member : Text × JsonValue}
      (hmember : parseMember value text = .ok (member, rest))
      (hmore : peek (skipWhitespace rest) ≠ '}')
      (hcomma : consume ',' (skipWhitespace rest) = .ok after) (h : LargeMembers after) :
      LargeMembers text

/-- One of the elements from here on has one. -/
inductive LargeElements : Text → Prop
  | here {text : Text} (h : large text) : LargeElements text
  | next {text rest after : Text} {v : JsonValue} (hvalue : value text = .ok (v, rest))
      (hmore : peek (skipWhitespace rest) ≠ ']')
      (hcomma : consume ',' (skipWhitespace rest) = .ok after) (h : LargeElements after) :
      LargeElements text

end Loops

/-- The value in front of a text has a number beyond 64 bits, with nothing wrong in front of it. -/
def LargeAt : Nat → Text → Prop
  | 0, _ => False
  | fuel + 1, text =>
      let text := skipWhitespace text
      if peek text = '{' then
        peek (skipWhitespace text.tail) ≠ '}' ∧
          LargeMembers (parseValue fuel) (LargeAt fuel) (skipWhitespace text.tail)
      else if peek text = '[' then
        peek (skipWhitespace text.tail) ≠ ']' ∧
          LargeElements (parseValue fuel) (LargeAt fuel) (skipWhitespace text.tail)
      else (peek text = '-' ∨ (peek text).isDigit) ∧ LargeNumber text

/-! ## What a part of the parser consumes -/

theorem length_consume {expected : Char} {text rest : Text} (h : consume expected text = .ok rest)
    (hne : expected ≠ Char.ofNat 0) : rest.length < text.length := by
  unfold consume at h
  split at h
  · cases h
  · cases h
    cases text with
    | nil =>
        -- at the end of the text stands the null character
        rename_i hpeek
        exact absurd (not_not.mp hpeek).symm hne
    | cons ch text => exact Nat.lt_succ_self _

theorem outcome_consume (expected : Char) (text : Text) :
    Outcome (consume expected text) False := by
  unfold consume
  split
  · exact .sim _
  · exact .ok _

theorem outcome_parseUnicodeEscape (digits : Text) :
    Outcome (parseUnicodeEscape digits) False := by
  unfold parseUnicodeEscape
  apply Outcome.bind_sim
  · apply Outcome.foldlM
    intro value ch _
    unfold parseUnicodeDigit
    split
    · exact .ok _
    · exact .sim _
  · intro value _
    exact .ok _

/-- A part of the parser ends as `large` says, and consumes something. -/
structure Progress {α : Type} (text : Text) (x : Except LoadError (α × Text)) (large : Prop) :
    Prop where
  outcome : Outcome x large
  shorter : ∀ v rest, x = .ok (v, rest) → rest.length < text.length

theorem Progress.sim {α : Type} (text : Text) (message : String) :
    Progress text (.error (.sim message) : Except LoadError (α × Text)) False :=
  ⟨.sim message, fun _ _ h => (by cases h)⟩

theorem Progress.ok {α : Type} {text : Text} (v : α) (rest : Text)
    (h : rest.length < text.length) :
    Progress text (.ok (v, rest)) False := by
  refine ⟨.ok _, ?_⟩
  intro v' rest' heq
  cases heq
  exact h

theorem Progress.mono {α : Type} {text more : Text} {x : Except LoadError (α × Text)}
    {large : Prop} (h : Progress text x large) (hle : text.length ≤ more.length) :
    Progress more x large := by
  refine ⟨h.outcome, ?_⟩
  intro v rest heq
  have := h.shorter v rest heq
  omega

theorem Progress.congr {α : Type} {text : Text} {x : Except LoadError (α × Text)} {p q : Prop}
    (h : Progress text x p) (hpq : p ↔ q) : Progress text x q :=
  ⟨h.outcome.congr hpq, h.shorter⟩

/-- What is behind a first part consumes no less than that part. -/
theorem Progress.bind {α β : Type} {text : Text} {x : Except LoadError β}
    {f : β → Except LoadError (α × Text)} {p : Prop} {q : β → Prop} (hx : Outcome x p)
    (hf : ∀ b, x = .ok b → Progress text (f b) (q b)) :
    Progress text (x >>= f) (p ∨ ∃ b, x = .ok b ∧ q b) := by
  refine ⟨hx.bind fun b hb => (hf b hb).outcome, ?_⟩
  intro v rest h
  rcases bind_eq_ok.mp h with ⟨b, hb, h⟩
  exact (hf b hb).shorter v rest h

theorem Progress.bind_sim {α β : Type} {text : Text} {x : Except LoadError β}
    {f : β → Except LoadError (α × Text)} (hx : Outcome x False)
    (hf : ∀ b, x = .ok b → Progress text (f b) False) : Progress text (x >>= f) False := by
  apply (Progress.bind hx hf).congr
  simp only [and_false, exists_false, or_false]

theorem progress_parseStringBody (text out : Text) :
    Progress text (parseStringBody text out) False := by
  fun_induction parseStringBody text out with
  | case1 => exact .sim _ _
  | case2 out rest => exact .ok _ _ (Nat.lt_succ_self _)
  | case3 => exact .sim _ _
  | case4 out a b c d rest _ ih =>
      apply Progress.bind_sim (outcome_parseUnicodeEscape _)
      intro ch _
      apply (ih ch).mono
      simp only [List.length_cons]
      omega
  | case5 => exact .sim _ _
  | case6 out esc rest _ _ ch _ ih =>
      apply ih.mono
      simp only [List.length_cons]
      omega
  | case7 => exact .sim _ _
  | case8 out ch rest _ _ ih =>
      apply ih.mono
      simp only [List.length_cons]
      omega

theorem progress_parseString (text : Text) : Progress text (parseString text) False := by
  unfold parseString
  apply Progress.bind_sim (outcome_consume _ _)
  intro rest hrest
  apply (progress_parseStringBody rest []).mono
  have := length_consume hrest (by decide)
  omega

theorem outcome_stoll (negative : Bool) (digits : Text) :
    Outcome (stoll negative digits) (stoll negative digits = .error .outOfRange) := by
  unfold stoll
  generalize (if negative then -(Digits.value 10 digits : Int) else Digits.value 10 digits) = value
  by_cases h : value < -2 ^ 63 ∨ value ≥ 2 ^ 63
  · rw [if_pos h]
    exact rfl
  · rw [if_neg h]
    exact (fun h => by cases h)

theorem progress_parseNumber (text : Text) :
    Progress text (parseNumber text) (LargeNumber text) := by
  have hrest : (if peek text == '-' then text.tail else text).length ≤ text.length := by
    split
    · rw [List.length_tail]
      omega
    · exact Nat.le_refl _
  have hlength : (numberDigits text).length +
      ((if peek text == '-' then text.tail else text).dropWhile Char.isDigit).length =
      (if peek text == '-' then text.tail else text).length := by
    unfold numberDigits
    rw [← List.length_append, List.takeWhile_append_dropWhile]
  show Progress text (throwIf (numberDigits text).isEmpty (LoadError.sim _) >>= fun _ =>
    stoll (peek text == '-') (numberDigits text) >>= fun value =>
      .ok (value, (if peek text == '-' then text.tail else text).dropWhile Char.isDigit)) _
  apply (Progress.bind (Outcome.throwIf _) fun _ hdigits =>
    Progress.bind (outcome_stoll _ _) fun value _ => Progress.ok value _ ?_).congr
  · -- an error of `stoll` comes after the check for digits
    simp only [and_false, exists_false, or_false, false_or]
    unfold LargeNumber
    constructor
    · rintro ⟨_, hdigits, h⟩
      rw [throwIf_eq_ok] at hdigits
      exact ⟨fun hnil => hdigits (by rw [hnil]; rfl), h⟩
    · rintro ⟨hdigits, h⟩
      refine ⟨(), ?_, h⟩
      rw [throwIf_eq_ok, List.isEmpty_iff]
      exact hdigits
  · rw [throwIf_eq_ok, List.isEmpty_iff, ← List.length_eq_zero_iff] at hdigits
    omega

/-! ## The loops -/

section Loops

variable {value : Text → Except LoadError (JsonValue × Text)} {large : Text → Prop} {bound : Nat}

theorem progress_parseMember (hvalue : ∀ text, text.length < bound →
      Progress text (value text) (large text))
    (text : Text) (h : text.length ≤ bound) :
    Progress text (parseMember value text) (LargeMember large text) := by
  have hkey := (progress_parseString (skipWhitespace text)).mono (length_skipWhitespace text)
  have hafter : ∀ key after, parseString (skipWhitespace text) = .ok key →
      consume ':' (skipWhitespace key.2) = .ok after → after.length < text.length := by
    intro key after hrest hcolon
    have := hkey.shorter key.1 key.2 hrest
    have := length_skipWhitespace key.2
    have := length_consume hcolon (by decide)
    omega
  unfold parseMember
  apply (Progress.bind hkey.outcome fun key hrest =>
    Progress.bind (outcome_consume ':' (skipWhitespace key.2)) fun after hcolon =>
      Progress.bind (p := large after) (hvalue after ?_).outcome fun v hv =>
        Progress.ok (key.1, v.1) v.2 ?_).congr
  · simp only [and_false, exists_false, or_false, false_or]
    constructor
    · rintro ⟨⟨key, rest⟩, hrest, after, hcolon, h⟩
      exact ⟨key, rest, after, hrest, hcolon, h⟩
    · rintro ⟨key, rest, after, hrest, hcolon, h⟩
      exact ⟨(key, rest), hrest, after, hcolon, h⟩
  · have := hafter key after hrest hcolon
    omega
  · have hlt := hafter key after hrest hcolon
    have := (hvalue after (by omega)).shorter v.1 v.2 hv
    omega

theorem largeMembers_iff (text : Text) :
    LargeMembers value large text ↔ LargeMember large text ∨
      ∃ member, parseMember value text = .ok member ∧ peek (skipWhitespace member.2) ≠ '}' ∧
        ∃ after, consume ',' (skipWhitespace member.2) = .ok after ∧
          LargeMembers value large after := by
  constructor
  · intro h
    cases h with
    | here h => exact .inl h
    | next hmember hmore hcomma h => exact .inr ⟨_, hmember, hmore, _, hcomma, h⟩
  · rintro (h | ⟨member, hmember, hmore, after, hcomma, h⟩)
    · exact .here h
    · exact .next hmember hmore hcomma h

theorem largeElements_iff (text : Text) :
    LargeElements value large text ↔ large text ∨
      ∃ v, value text = .ok v ∧ peek (skipWhitespace v.2) ≠ ']' ∧
        ∃ after, consume ',' (skipWhitespace v.2) = .ok after ∧
          LargeElements value large after := by
  constructor
  · intro h
    cases h with
    | here h => exact .inl h
    | next hvalue hmore hcomma h => exact .inr ⟨_, hvalue, hmore, _, hcomma, h⟩
  · rintro (h | ⟨v, hvalue, hmore, after, hcomma, h⟩)
    · exact .here h
    · exact .next hvalue hmore hcomma h

/-- Behind a part of a loop comes its closing token, or a comma and the rest of the loop. -/
theorem progress_separator {α : Type} {text rest : Text} {close : Char} {result : α}
    {loop : Text → Except LoadError (α × Text)} {p : Text → Prop}
    (hrest : rest.length < text.length)
    (hloop : ∀ after, after.length < rest.length → Progress after (loop after) (p after)) :
    Progress text
      (if peek (skipWhitespace rest) = close then .ok (result, (skipWhitespace rest).tail)
        else consume ',' (skipWhitespace rest) >>= loop)
      (peek (skipWhitespace rest) ≠ close ∧
        ∃ after, consume ',' (skipWhitespace rest) = .ok after ∧ p after) := by
  have hskip := length_skipWhitespace rest
  by_cases h : peek (skipWhitespace rest) = close
  · rw [if_pos h]
    apply (Progress.ok result _ _).congr
    · simp only [h, ne_eq, not_true_eq_false, false_and]
    · rw [List.length_tail]
      omega
  · have hmore : ∀ after, consume ',' (skipWhitespace rest) = .ok after →
        Progress text (loop after) (p after) := by
      intro after hcomma
      have := length_consume hcomma (by decide)
      exact (hloop after (by omega)).mono (by omega)
    rw [if_neg h]
    apply (Progress.bind (outcome_consume ',' _) hmore).congr
    simp only [h, ne_eq, not_false_eq_true, true_and, false_or]

theorem progress_parseMembers (hvalue : ∀ text, text.length < bound →
      Progress text (value text) (large text))
    (fuel : Nat) (object : List (Text × JsonValue)) (text : Text) (h : text.length ≤ bound)
    (hfuel : text.length < fuel) :
    Progress text (parseMembers value fuel object text) (LargeMembers value large text) := by
  induction fuel generalizing object text with
  | zero => omega
  | succ fuel ih =>
      have hmember := progress_parseMember hvalue text h
      unfold parseMembers
      apply (Progress.bind hmember.outcome fun member hm => progress_separator
        (hmember.shorter member.1 member.2 hm) fun after hafter => ?_).congr
      · rw [largeMembers_iff]
      · have := hmember.shorter member.1 member.2 hm
        exact ih _ after (by omega) (by omega)

theorem progress_parseElements (hvalue : ∀ text, text.length < bound →
      Progress text (value text) (large text))
    (fuel : Nat) (array : List JsonValue) (text : Text) (h : text.length < bound)
    (hfuel : text.length < fuel) :
    Progress text (parseElements value fuel array text) (LargeElements value large text) := by
  induction fuel generalizing array text with
  | zero => omega
  | succ fuel ih =>
      have helement := hvalue text h
      unfold parseElements
      apply (Progress.bind helement.outcome fun v hv => progress_separator
        (helement.shorter v.1 v.2 hv) fun after hafter => ?_).congr
      · rw [largeElements_iff]
      · have := helement.shorter v.1 v.2 hv
        exact ih _ after (by omega) (by omega)

end Loops

/-! ## Values -/

theorem eq_append_of_matchToken {token text rest : Text} (h : matchToken token text = some rest) :
    text = token ++ rest := by
  unfold matchToken at h
  split at h
  · rename_i hprefix
    cases h
    rcases List.isPrefixOf_iff_prefix.mp hprefix with ⟨tail, rfl⟩
    rw [List.drop_left]
  · cases h

/-- One of the three words is read, and no number with it. -/
theorem progress_word {ch : Char} {token text rest : Text} (fuel : Nat) (v : JsonValue)
    (hch : ch ≠ '{' ∧ ch ≠ '[' ∧ ¬(ch = '-' ∨ ch.isDigit))
    (h : matchToken (ch :: token) (skipWhitespace text) = some rest) :
    Progress text (.ok (v, rest)) (LargeAt (fuel + 1) text) := by
  have htext := eq_append_of_matchToken h
  have hpeek : peek (skipWhitespace text) = ch := by
    rw [htext]
    rfl
  have hlength := length_skipWhitespace text
  rw [htext, List.length_append, List.length_cons] at hlength
  apply (Progress.ok v rest (by omega)).congr
  unfold LargeAt
  simp only [hpeek, hch, if_false, false_and]

theorem peek_eq {ch : Char} {text : Text} (h : peek text = ch) (hne : ch ≠ Char.ofNat 0) :
    text = ch :: text.tail := by
  cases text with
  | nil => exact absurd h.symm hne
  | cons c text =>
      cases h
      rfl

theorem progress_parseObject {fuel : Nat} (hvalue : ∀ text, text.length < fuel →
      Progress text (parseValue fuel text) (LargeAt fuel text))
    (text : Text) (h : text.length < fuel) :
    Progress text (parseObject (parseValue fuel) fuel text)
      (peek (skipWhitespace text) ≠ '}' ∧
        LargeMembers (parseValue fuel) (LargeAt fuel) (skipWhitespace text)) := by
  have hskip := length_skipWhitespace text
  unfold parseObject
  by_cases hclose : peek (skipWhitespace text) = '}'
  · have hcons := congrArg List.length (peek_eq hclose (by decide))
    rw [List.length_cons] at hcons
    simp only [hclose, if_true, ne_eq, not_true_eq_false, false_and]
    exact .ok _ _ (by omega)
  · have hmembers := progress_parseMembers hvalue fuel [] (skipWhitespace text) (by omega)
      (by omega)
    simp only [hclose, if_false, ne_eq, not_false_eq_true, true_and]
    apply (Progress.bind hmembers.outcome fun members hm =>
      Progress.ok (JsonValue.object members.1) members.2 ?_).congr
    · simp only [and_false, exists_false, or_false]
    · have := hmembers.shorter members.1 members.2 hm
      omega

theorem progress_parseArray {fuel : Nat} (hvalue : ∀ text, text.length < fuel →
      Progress text (parseValue fuel text) (LargeAt fuel text))
    (text : Text) (h : text.length < fuel) :
    Progress text (parseArray (parseValue fuel) fuel text)
      (peek (skipWhitespace text) ≠ ']' ∧
        LargeElements (parseValue fuel) (LargeAt fuel) (skipWhitespace text)) := by
  have hskip := length_skipWhitespace text
  unfold parseArray
  by_cases hclose : peek (skipWhitespace text) = ']'
  · have hcons := congrArg List.length (peek_eq hclose (by decide))
    rw [List.length_cons] at hcons
    simp only [hclose, if_true, ne_eq, not_true_eq_false, false_and]
    exact .ok _ _ (by omega)
  · have helements := progress_parseElements hvalue fuel [] (skipWhitespace text) (by omega)
      (by omega)
    simp only [hclose, if_false, ne_eq, not_false_eq_true, true_and]
    apply (Progress.bind helements.outcome fun values hv =>
      Progress.ok (JsonValue.array values.1) values.2 ?_).congr
    · simp only [and_false, exists_false, or_false]
    · have := helements.shorter values.1 values.2 hv
      omega

/-- With fuel beyond the length of the text the recursion ends, and the parser throws the exception
of `std::stoll` exactly where it meets a number beyond 64 bits. -/
theorem progress_parseValue (fuel : Nat) (text : Text) (h : text.length < fuel) :
    Progress text (parseValue fuel text) (LargeAt fuel text) := by
  induction fuel generalizing text with
  | zero => omega
  | succ fuel ih =>
      have hskip := length_skipWhitespace text
      -- behind an opening brace or bracket, a level of the recursion less is left
      have htail : ∀ ch, peek (skipWhitespace text) = ch → ch ≠ Char.ofNat 0 →
          (skipWhitespace text).tail.length < (skipWhitespace text).length := by
        intro ch hpeek hne
        have hcons := congrArg List.length (peek_eq hpeek hne)
        rw [List.length_cons] at hcons
        omega
      unfold parseValue
      simp only []
      split
      · rename_i rest hnull
        exact progress_word fuel _ (by decide) hnull
      split
      · rename_i rest htrue
        exact progress_word fuel _ (by decide) htrue
      split
      · rename_i rest hfalse
        exact progress_word fuel _ (by decide) hfalse
      unfold LargeAt
      by_cases hbrace : peek (skipWhitespace text) = '{'
      · have := htail _ hbrace (by decide)
        simp only [hbrace, if_true]
        exact (progress_parseObject ih _ (by omega)).mono (by omega)
      by_cases hbracket : peek (skipWhitespace text) = '['
      · have := htail _ hbracket (by decide)
        simp only [hbracket, if_neg (show ¬('[' : Char) = '{' by decide), if_true]
        exact (progress_parseArray ih _ (by omega)).mono (by omega)
      simp only [if_neg hbrace, if_neg hbracket]
      by_cases hquote : peek (skipWhitespace text) = '"'
      · rw [if_pos hquote, hquote]
        have hstring := progress_parseString (skipWhitespace text)
        apply (Progress.bind_sim hstring.outcome fun string hs =>
          Progress.ok (JsonValue.string string.1) string.2 ?_).congr
        · exact ⟨False.elim, fun hlarge => absurd hlarge.1 (by decide)⟩
        · have := hstring.shorter string.1 string.2 hs
          omega
      rw [if_neg hquote]
      by_cases hnumber : peek (skipWhitespace text) = '-' ∨ (peek (skipWhitespace text)).isDigit
      · rw [if_pos hnumber]
        have hn := progress_parseNumber (skipWhitespace text)
        apply (Progress.bind hn.outcome fun number hs =>
          Progress.ok (JsonValue.number number.1) number.2 ?_).congr
        · simp only [hnumber, true_and, and_false, exists_false, or_false]
        · have := hn.shorter number.1 number.2 hs
          omega
      · rw [if_neg hnumber]
        apply (Progress.sim text _).congr
        exact ⟨False.elim, fun hlarge => hnumber hlarge.1⟩

/-- The text of a document meets a number beyond 64 bits. -/
def LargeDocument (input : Text) : Prop := LargeAt (input.length + 1) (skipWhitespace input)

theorem outcome_parse (input : Text) : Outcome (parse input) (LargeDocument input) := by
  unfold parse
  have hskip := length_skipWhitespace input
  have hvalue := progress_parseValue (input.length + 1) (skipWhitespace input) (by omega)
  apply (hvalue.outcome.bind fun value _ =>
    (Outcome.throwIf _).bind_sim fun _ _ => Outcome.ok value.1).congr
  simp only [and_false, exists_false, or_false]
  rfl

end JsonParser

end Irata2.Sim
