import Irata2.Sim.DebugSymbols
import Mathlib.Data.List.TakeWhile

/-!
# Hexadecimal words

What `ParseHexWord` accepts, and where that is a word written in hexadecimal.
-/

namespace Irata2.Sim

open Library

/-- `text` is `0x` with hexadecimal digits behind it, and they are worth `w`. -/
def HexWord (text : Text) (w : Word) : Prop :=
  ∃ digits, text = "0x".toList ++ digits ∧ digits ≠ [] ∧
    (∀ ch ∈ digits, (Digits.digit ch).isSome) ∧ Digits.value 16 digits = w.toNat

/-- The ways in which a text that `ParseHexWord` accepts is none of these: its prefix is in upper
case, a character behind the prefix is no digit, or the digits are worth more than 32 bits. -/
def SlipsHex (text : Text) : Prop :=
  "0X".toList.isPrefixOf text ∨ (∃ ch ∈ text.drop 2, Digits.digit ch = none) ∨
    2 ^ 32 ≤ Digits.value 16 (text.drop 2)

/-- The word that `ParseHexWord` returns. -/
def readHex (text : Text) : Option Word :=
  if "0x".toList.isPrefixOf text ∨ "0X".toList.isPrefixOf text then
    (stoul (text.drop 2)).bind fun number =>
      if number % 2 ^ 32 ≤ 0xFFFF then some (BitVec.ofNat 16 number) else none
  else none

theorem parseHexWord_eq_ok {text : Text} {label : String} {w : Word} :
    parseHexWord text label = .ok w ↔ readHex text = some w := by
  have hcut : ∀ number : Nat,
      (BitVec.ofNat 32 number).setWidth 16 = BitVec.ofNat 16 number := by
    intro number
    apply BitVec.eq_of_toNat_eq
    rw [BitVec.toNat_setWidth, BitVec.toNat_ofNat, BitVec.toNat_ofNat]
    exact Nat.mod_mod_of_dvd number (by decide)
  unfold parseHexWord readHex
  rw [bind_eq_ok]
  by_cases hstarts : "0x".toList.isPrefixOf text ∨ "0X".toList.isPrefixOf text
  · rw [if_pos hstarts, throwIf_eq_ok.mpr (by rw [not_and_or, not_not, not_not]; exact hstarts)]
    cases hstoul : stoul (text.drop 2) with
    | none =>
        constructor
        · rintro ⟨_, -, h⟩
          cases h
        · intro h
          cases h
    | some number =>
        simp only [Option.bind_some, BitVec.toNat_ofNat, hcut]
        by_cases hrange : number % 2 ^ 32 ≤ 0xFFFF
        · rw [if_pos hrange, throwIf_eq_ok.mpr (by omega)]
          constructor
          · rintro ⟨_, -, h⟩
            cases h
            rfl
          · intro h
            cases h
            exact ⟨(), trivial, rfl⟩
        · rw [if_neg hrange]
          constructor
          · rintro ⟨_, -, h⟩
            have hthrow := (seq_eq_ok.mp h).1
            rw [throwIf_eq_ok] at hthrow
            omega
          · intro h
            cases h
  · rw [if_neg hstarts]
    constructor
    · rintro ⟨_, h, -⟩
      rw [throwIf_eq_ok, not_and_or, not_not, not_not] at h
      exact absurd h hstarts
    · intro h
      cases h

/-! ## Digits alone -/

theorem ne_of_isSome_digit {ch c : Char} (h : (Digits.digit ch).isSome)
    (hc : Digits.digit c = none) : ch ≠ c := by
  intro heq
  rw [heq, hc] at h
  cases h

theorem isSpace_of_isSome_digit {ch : Char} (h : (Digits.digit ch).isSome) :
    isSpace ch = false := by
  -- every digit comes behind the character `0`
  have hle : '0'.toNat ≤ ch.toNat := by
    unfold Digits.digit at h
    split at h
    · rename_i hrange
      exact UInt32.le_iff_toNat_le.mp hrange.1
    split at h
    · rename_i hrange
      have hlower : 'a'.toNat ≤ ch.toNat := UInt32.le_iff_toNat_le.mp hrange.1
      exact Nat.le_trans (by decide) hlower
    split at h
    · rename_i hrange
      have hupper : 'A'.toNat ≤ ch.toNat := UInt32.le_iff_toNat_le.mp hrange.1
      exact Nat.le_trans (by decide) hupper
    · cases h
  have hzero : '0'.toNat = 48 := rfl
  have hblank : ch ≠ ' ' := ne_of_isSome_digit h rfl
  unfold isSpace
  rw [Bool.or_eq_false_iff, Bool.and_eq_false_iff]
  refine ⟨beq_eq_false_iff_ne.mpr hblank, .inr ?_⟩
  rw [decide_eq_false_iff_not]
  omega

/-- `std::stoul` on digits alone. -/
theorem stoul_digits {digits : Text} (hne : digits ≠ [])
    (hdigits : ∀ ch ∈ digits, (Digits.digit ch).isSome)
    (hvalue : Digits.value 16 digits < 2 ^ 64) :
    stoul digits = some (Digits.value 16 digits) := by
  cases digits with
  | nil => exact absurd rfl hne
  | cons ch text =>
      have hch := hdigits ch List.mem_cons_self
      have hdrop : (ch :: text).dropWhile isSpace = ch :: text := by
        rw [List.dropWhile_cons, isSpace_of_isSome_digit hch]
        rfl
      have hsign : splitSign (ch :: text) = (false, ch :: text) := by
        unfold splitSign
        split
        · rename_i heq
          exact absurd (List.cons.inj heq).1 (ne_of_isSome_digit hch rfl)
        · rename_i heq
          exact absurd (List.cons.inj heq).1 (ne_of_isSome_digit hch rfl)
        · rfl
      have hstarts : dropHexPrefix (ch :: text) = ch :: text := by
        unfold dropHexPrefix
        split
        · rename_i x e t heq
          -- the second character is a digit, and neither `x` nor `X`
          have hx : x ∈ ch :: text := by
            rw [(List.cons.inj heq).2]
            exact List.mem_cons_of_mem _ List.mem_cons_self
          have hlower : x ≠ 'x' := ne_of_isSome_digit (hdigits x hx) rfl
          have hupper : x ≠ 'X' := ne_of_isSome_digit (hdigits x hx) rfl
          rw [if_neg (fun h => h.1.elim hlower hupper), heq]
        · rfl
      have htake : (ch :: text).takeWhile (fun ch => (Digits.digit ch).isSome) = ch :: text :=
        List.takeWhile_eq_self_iff.mpr hdigits
      unfold stoul
      simp only [hdrop, hsign, hstarts, htake, List.isEmpty_cons, Bool.false_eq_true, false_or,
        if_false, if_neg (Nat.not_le.mpr hvalue)]

/-- The digits of a word behind `0x` are read as that word. -/
theorem readHex_of_hexWord {text : Text} {w : Word} (h : HexWord text w) :
    readHex text = some w := by
  rcases h with ⟨digits, rfl, hne, hdigits, hvalue⟩
  have hlt : w.toNat < 2 ^ 16 := w.isLt
  have hstarts : "0x".toList.isPrefixOf ("0x".toList ++ digits) = true :=
    List.isPrefixOf_iff_prefix.mpr (List.prefix_append _ _)
  have hdrop : ("0x".toList ++ digits).drop 2 = digits := rfl
  unfold readHex
  rw [if_pos (.inl hstarts), hdrop, stoul_digits hne hdigits (by omega), hvalue, Option.bind_some,
    if_pos (by omega), BitVec.ofNat_toNat, BitVec.setWidth_eq]

/-- A text that is read is a word written in hexadecimal, unless it slips through. -/
theorem hexWord_iff_of_readHex {text : Text} {w : Word} (h : readHex text = some w) :
    HexWord text w ↔ ¬SlipsHex text := by
  constructor
  · rintro ⟨digits, rfl, -, hdigits, hvalue⟩ (hupper | ⟨ch, hch, hnone⟩ | hlarge)
    · exact absurd hupper (by simp [List.isPrefixOf])
    · have hsome := hdigits ch hch
      rw [hnone] at hsome
      cases hsome
    · have hlt : w.toNat < 2 ^ 16 := w.isLt
      have hdrop : ("0x".toList ++ digits).drop 2 = digits := rfl
      rw [hdrop] at hlarge
      omega
  · intro hslips
    unfold SlipsHex at hslips
    rw [not_or, not_or, not_exists] at hslips
    rcases hslips with ⟨hupper, hnone, hlarge⟩
    unfold readHex at h
    split at h
    · rename_i hstarts
      rcases List.isPrefixOf_iff_prefix.mp (hstarts.resolve_right hupper) with ⟨digits, rfl⟩
      have hdrop : ("0x".toList ++ digits).drop 2 = digits := rfl
      rw [hdrop] at h hnone hlarge
      have hdigits : ∀ ch ∈ digits, (Digits.digit ch).isSome := by
        intro ch hch
        rw [Option.isSome_iff_ne_none]
        exact fun hn => hnone ch ⟨hch, hn⟩
      have hne : digits ≠ [] := by
        rintro rfl
        cases h
      rw [stoul_digits hne hdigits (by omega), Option.bind_some] at h
      split at h
      · rename_i hrange
        cases h
        refine ⟨digits, rfl, hne, hdigits, ?_⟩
        rw [BitVec.toNat_ofNat]
        omega
      · cases h
    · cases h

end Irata2.Sim
