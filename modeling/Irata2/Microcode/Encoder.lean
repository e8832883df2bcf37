import Irata2.Library.Submask
import Irata2.Microcode.Ir

/-!
# Encoders of the microcode compiler

A step becomes a 128-bit control word with one bit for each control, in the visiting order of the
hardware description, and a partial status becomes the list of all status bytes that agree with
it on the configured bits.
-/

namespace Irata2.Microcode

open Hdl Library

/-! ## Control words -/

/-- The bit of a control; the 95 controls fit the 128-bit word. -/
def controlIndex (c : Control) : Nat := cpuControls.idxOf c

def controlPaths : List String := cpuControls.map Control.path

def encodeControls (controls : List Control) : ControlWord :=
  controls.foldl (fun word c => word ||| (1#128 <<< controlIndex c)) 0

theorem controlIndex_lt (c : Control) : controlIndex c < 95 := by
  rw [← cpuControls_length]
  exact List.idxOf_lt_length_of_mem (mem_cpuControls c)

theorem getElem_controlIndex (c : Control) : cpuControls[controlIndex c]? = some c := by
  unfold controlIndex
  rw [List.getElem?_eq_getElem (List.idxOf_lt_length_of_mem (mem_cpuControls c))]
  exact congrArg some (List.getElem_idxOf _)

theorem controlIndex_injective : Function.Injective controlIndex := by
  intro c d h
  have hc := getElem_controlIndex c
  rw [h, getElem_controlIndex d] at hc
  exact (Option.some.inj hc).symm

theorem controlIndex_getElem {i : Nat} {c : Control} (h : cpuControls[i]? = some c) :
    controlIndex c = i := by
  rcases List.getElem?_eq_some_iff.mp h with ⟨hi, rfl⟩
  exact List.Nodup.idxOf_getElem cpuControls_nodup i hi

private theorem getLsbD_foldl_controls (controls : List Control) (word : ControlWord) (i : Nat) :
    (controls.foldl (fun word c => word ||| (1#128 <<< controlIndex c)) word).getLsbD i = true ↔
      word.getLsbD i = true ∨ ∃ c ∈ controls, controlIndex c = i := by
  induction controls generalizing word with
  | nil => simp
  | cons c controls ih =>
      rw [List.foldl_cons, ih, BitVec.getLsbD_or, getLsbD_one_shiftLeft, Bool.or_eq_true,
        Bool.and_eq_true, decide_eq_true_eq, decide_eq_true_eq, or_assoc]
      refine or_congr_right ?_
      have hlt := controlIndex_lt c
      constructor
      · rintro (⟨-, hc⟩ | ⟨d, hd, hi⟩)
        · exact ⟨c, List.mem_cons_self, hc⟩
        · exact ⟨d, List.mem_cons_of_mem _ hd, hi⟩
      · rintro ⟨d, hd, hi⟩
        rcases List.mem_cons.mp hd with rfl | hd
        · exact .inl ⟨by omega, hi⟩
        · exact .inr ⟨d, hd, hi⟩

/-- A control word has exactly the bits of the controls it encodes. -/
theorem getLsbD_encodeControls (controls : List Control) (i : Nat) :
    (encodeControls controls).getLsbD i = true ↔ ∃ c ∈ controls, controlIndex c = i := by
  unfold encodeControls
  rw [getLsbD_foldl_controls]
  simp

theorem getLsbD_encodeControls_control (controls : List Control) (c : Control) :
    (encodeControls controls).getLsbD (controlIndex c) = true ↔ c ∈ controls := by
  rw [getLsbD_encodeControls]
  constructor
  · rintro ⟨d, hd, heq⟩
    rw [← controlIndex_injective heq]
    exact hd
  · intro hc
    exact ⟨c, hc, rfl⟩

/-! ## Status bytes -/

/-- The status encoder: named bits of the status byte. -/
structure StatusEncoder where
  bits : List StatusBitDefinition
  bits_lt : ∀ b ∈ bits, b.bit < 8

namespace StatusEncoder

theorem bits_lt_nil : ∀ b ∈ ([] : List StatusBitDefinition), b.bit < 8 := List.forall_mem_nil _

def new (bits : List StatusBitDefinition) : Except MicrocodeError StatusEncoder :=
  match h : bits.find? fun b => decide (8 ≤ b.bit) with
  | some b => .error (.statusBitOutOfRange b.bit)
  | none =>
      .ok ⟨bits, fun b hb => by
        have hno := List.find?_eq_none.mp h b hb
        rw [decide_eq_true_eq] at hno
        omega⟩

/-- The bits that the partial status sets. -/
def base (enc : StatusEncoder) (partialStatus : List (String × Bool)) : Byte :=
  enc.bits.foldl
    (fun base b =>
      if partialStatus.lookup b.name = some true then base ||| (1#8 <<< b.bit) else base) 0

/-- The bits that the partial status leaves open. -/
def unspecifiedBits (enc : StatusEncoder) (partialStatus : List (String × Bool)) : List Nat :=
  (enc.bits.filter fun b => (partialStatus.lookup b.name).isNone).map (·.bit)

def expandPartial (enc : StatusEncoder) (partialStatus : List (String × Bool)) :
    Except MicrocodeError (List Byte) :=
  if enc.bits.isEmpty then
    if partialStatus.isEmpty then .ok [0] else .error .statusBitsNotConfigured
  else
    match partialStatus.find? fun c => decide (c.1 ∉ enc.bits.map (·.name)) with
    | some c => .error (.unknownStatus c.1)
    | none => .ok (completions (enc.base partialStatus) (enc.unspecifiedBits partialStatus))

private theorem getLsbD_foldl_base (l : List StatusBitDefinition) (hl : ∀ b ∈ l, b.bit < 8)
    (partialStatus : List (String × Bool)) (v : Byte) (j : Nat) :
    (l.foldl (fun base b =>
      if partialStatus.lookup b.name = some true then base ||| (1#8 <<< b.bit)
      else base) v).getLsbD j = true ↔
      v.getLsbD j = true ∨ ∃ b ∈ l, b.bit = j ∧ partialStatus.lookup b.name = some true := by
  induction l generalizing v with
  | nil => simp
  | cons b l ih =>
      rw [List.foldl_cons, ih (fun c hc => hl c (List.mem_cons_of_mem _ hc))]
      have hb8 := hl b List.mem_cons_self
      by_cases hb : partialStatus.lookup b.name = some true
      · rw [if_pos hb, BitVec.getLsbD_or, getLsbD_one_shiftLeft, Bool.or_eq_true, Bool.and_eq_true,
          decide_eq_true_eq, decide_eq_true_eq, or_assoc]
        refine or_congr_right ?_
        constructor
        · rintro (⟨-, hj⟩ | ⟨c, hc, h⟩)
          · exact ⟨b, List.mem_cons_self, hj, hb⟩
          · exact ⟨c, List.mem_cons_of_mem _ hc, h⟩
        · rintro ⟨c, hc, hj, h⟩
          rcases List.mem_cons.mp hc with rfl | hc
          · exact .inl ⟨by omega, hj⟩
          · exact .inr ⟨c, hc, hj, h⟩
      · rw [if_neg hb]
        refine or_congr_right ?_
        constructor
        · rintro ⟨c, hc, h⟩
          exact ⟨c, List.mem_cons_of_mem _ hc, h⟩
        · rintro ⟨c, hc, hj, h⟩
          rcases List.mem_cons.mp hc with rfl | hc
          · exact absurd h hb
          · exact ⟨c, hc, hj, h⟩

theorem getLsbD_base (enc : StatusEncoder) (partialStatus : List (String × Bool)) (j : Nat) :
    (enc.base partialStatus).getLsbD j = true ↔
      ∃ b ∈ enc.bits, b.bit = j ∧ partialStatus.lookup b.name = some true := by
  unfold base
  rw [getLsbD_foldl_base _ enc.bits_lt]
  simp

theorem mem_unspecifiedBits {enc : StatusEncoder} {partialStatus : List (String × Bool)}
    {j : Nat} :
    j ∈ enc.unspecifiedBits partialStatus ↔
      ∃ b ∈ enc.bits, b.bit = j ∧ partialStatus.lookup b.name = none := by
  unfold unspecifiedBits
  rw [List.mem_map]
  constructor
  · rintro ⟨b, hb, rfl⟩
    rw [List.mem_filter, Option.isNone_iff_eq_none] at hb
    exact ⟨b, hb.1, rfl, hb.2⟩
  · rintro ⟨b, hb, rfl, h⟩
    exact ⟨b, List.mem_filter.mpr ⟨hb, by rw [h]; rfl⟩, rfl⟩

/-- Whatever the configuration, an expansion lists the completions of its partial status. -/
theorem expandPartial_eq {enc : StatusEncoder} {partialStatus : List (String × Bool)}
    {statuses : List Byte} (h : enc.expandPartial partialStatus = .ok statuses) :
    statuses = completions (enc.base partialStatus) (enc.unspecifiedBits partialStatus) ∧
      ∀ c ∈ partialStatus, c.1 ∈ enc.bits.map (·.name) := by
  unfold expandPartial at h
  split at h
  · rename_i hempty
    split at h
    · rename_i hpartial
      cases h
      rw [List.isEmpty_iff] at hempty hpartial
      subst hpartial
      refine ⟨?_, fun c hc => (by cases hc)⟩
      unfold base unspecifiedBits
      rw [hempty]
      rfl
    · cases h
  · split at h
    · cases h
    · rename_i hfind
      cases h
      refine ⟨rfl, ?_⟩
      intro c hc
      have hno := List.find?_eq_none.mp hfind c hc
      rw [decide_eq_true_eq, not_not] at hno
      exact hno

theorem mem_expandPartial {enc : StatusEncoder} {partialStatus : List (String × Bool)}
    {statuses : List Byte} (h : enc.expandPartial partialStatus = .ok statuses) (v : Byte) :
    v ∈ statuses ↔
      (∀ b ∈ enc.bits, partialStatus.lookup b.name = some true → v.getLsbD b.bit = true) ∧
        (∀ j, v.getLsbD j = true →
          ∃ b ∈ enc.bits, b.bit = j ∧ partialStatus.lookup b.name ≠ some false) := by
  rw [(expandPartial_eq h).1, mem_completions]
  refine and_congr ?_ (forall_congr' fun j => imp_congr_right fun _ => ?_)
  · constructor
    · intro hv b hb ht
      exact hv b.bit ((enc.getLsbD_base partialStatus b.bit).mpr ⟨b, hb, rfl, ht⟩)
    · intro hv j hj
      rcases (enc.getLsbD_base partialStatus j).mp hj with ⟨b, hb, rfl, ht⟩
      exact hv b hb ht
  · rw [getLsbD_base, mem_unspecifiedBits]
    constructor
    · rintro (⟨b, hb, hj, ht⟩ | ⟨b, hb, hj, ht⟩)
      · exact ⟨b, hb, hj, by rw [ht]; decide⟩
      · exact ⟨b, hb, hj, by rw [ht]; decide⟩
    · rintro ⟨b, hb, hj, hne⟩
      cases hl : partialStatus.lookup b.name with
      | none => exact .inr ⟨b, hb, hj, hl⟩
      | some value =>
          cases value with
          | true => exact .inl ⟨b, hb, hj, hl⟩
          | false => exact absurd hl hne

/-- The expansion of the empty partial status has one entry for every choice of the bits. -/
theorem expandPartial_nil (enc : StatusEncoder) :
    ∃ statuses, enc.expandPartial [] = .ok statuses ∧ statuses.length = 2 ^ enc.bits.length := by
  have hun : (enc.unspecifiedBits []).length = enc.bits.length := by
    unfold unspecifiedBits
    rw [List.length_map]
    exact congrArg List.length (List.filter_eq_self.mpr fun _ _ => rfl)
  unfold expandPartial
  split
  · rename_i hempty
    rw [List.isEmpty_iff] at hempty
    refine ⟨[0], rfl, ?_⟩
    rw [hempty]
    rfl
  · refine ⟨_, rfl, ?_⟩
    rw [completions_length, hun]

end StatusEncoder

end Irata2.Microcode
