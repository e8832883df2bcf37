import Irata2.Library.Cover
import Irata2.Microcode.Compiler

/-!
# What the validators guarantee

An instruction set that passes the validators has at most one writer on each bus in a step, one
entry for each opcode, and variants that partition the statuses.  The encoder then burns every
step under every status of its variant, and nothing else.
-/

namespace Irata2.Microcode

open Hdl Library

theorem forVariants_eq_ok {is : InstructionSet}
    {check : Instruction → InstructionVariant → Except MicrocodeError Unit} :
    forVariants is check = .ok () ↔
      ∀ i ∈ is.instructions, ∀ v ∈ i.variants, check i v = .ok () := by
  unfold forVariants
  simp only [forM_eq_ok]

theorem forall_mem_zipIdx {α : Type*} (l : List α) (p : α → Nat → Prop) :
    (∀ x ∈ l.zipIdx, p x.1 x.2) ↔ ∀ k x, l[k]? = some x → p x k := by
  constructor
  · intro h k x hk
    exact h (x, k) (List.mem_zipIdx_iff_getElem?.mpr hk)
  · intro h x hx
    exact h x.2 x.1 (List.mem_zipIdx_iff_getElem?.mp hx)

theorem forSteps_eq_ok {is : InstructionSet} {check : Step → Int → Nat → Except MicrocodeError Unit} :
    forSteps is check = .ok () ↔
      (∀ k s, is.fetchPreamble[k]? = some s → check s (-1) k = .ok ()) ∧
        ∀ i ∈ is.instructions, ∀ v ∈ i.variants, ∀ k s, v.steps[k]? = some s →
          check s i.opcode.toNat k = .ok () := by
  unfold forSteps
  rw [seq_eq_ok, forVariants_eq_ok]
  simp only [forM_eq_ok]
  refine and_congr (forall_mem_zipIdx _ fun s k => check s (-1) k = .ok ()) ?_
  refine forall₂_congr fun i _ => forall₂_congr fun v _ => ?_
  exact forall_mem_zipIdx _ fun s k => check s i.opcode.toNat k = .ok ()

/-! ## Buses -/

/-- At most one control of the step writes a bus, and a bus that is read is written. -/
def BusValid (s : Step) : Prop :=
  ∀ bus, (busWriters bus s).length ≤ 1 ∧ (busReaders bus s ≠ [] → busWriters bus s ≠ [])

theorem busValidateStep_eq_ok {s : Step} {opcode : Int} {step : Nat} :
    busValidateStep s opcode step = .ok () ↔ BusValid s := by
  unfold busValidateStep
  rw [seq_eq_ok]
  simp only [forM_eq_ok, throwIf_eq_ok, not_lt, not_and]
  constructor
  · rintro ⟨hw, hr⟩ bus
    have hmem : bus ∈ [BusType.data, .address] := by cases bus <;> decide
    exact ⟨hw bus hmem, hr bus hmem⟩
  · intro h
    exact ⟨fun bus _ => (h bus).1, fun bus _ => (h bus).2⟩

/-! ## Opcodes -/

theorem nodup_of_isaCoverageValidator {is : InstructionSet}
    (h : isaCoverageValidator is = .ok ()) : (is.instructions.map (·.opcode)).Nodup := by
  unfold isaCoverageValidator at h
  rcases bind_eq_ok.mp h with ⟨seen, hseen, -⟩
  -- the set of seen opcodes stays duplicate-free and collects every opcode of the list
  have hfold : ∀ (l : List Instruction) (s s' : List Byte), s.Nodup →
      l.foldlM coverOpcode s = .ok s' →
      s'.Nodup ∧ s' = (l.map (·.opcode)).reverse ++ s := by
    intro l
    induction l with
    | nil =>
        intro s s' hs h
        cases h
        exact ⟨hs, rfl⟩
    | cons i l ih =>
        intro s s' hs h
        rcases foldlM_cons_eq_ok.mp h with ⟨s₁, h₁, hl⟩
        unfold coverOpcode at h₁
        split at h₁
        · cases h₁
        · split at h₁
          · cases h₁
          · rename_i hnew
            cases h₁
            rcases ih _ _ (List.nodup_cons.mpr ⟨hnew, hs⟩) hl with ⟨hnd, heq⟩
            refine ⟨hnd, ?_⟩
            rw [heq, List.map_cons, List.reverse_cons, List.append_assoc]
            rfl
  rcases hfold _ _ _ List.nodup_nil hseen with ⟨hnd, heq⟩
  rw [heq, List.append_nil, List.nodup_reverse] at hnd
  exact hnd

/-- With distinct opcodes an opcode determines its instruction. -/
theorem eq_of_opcode_eq {is : InstructionSet} (h : (is.instructions.map (·.opcode)).Nodup)
    {i j : Instruction} (hi : i ∈ is.instructions) (hj : j ∈ is.instructions)
    (heq : i.opcode = j.opcode) : i = j :=
  List.inj_on_of_nodup_map h hi hj heq

/-! ## Statuses -/

/-- The statuses a variant covers. -/
def StatusEncoder.statusesOf (enc : StatusEncoder) (v : InstructionVariant) : List Byte :=
  match enc.expandPartial v.statusConditions with
  | .ok statuses => statuses
  | .error _ => []

/-- The encodings of a whole status register: every choice of the configured bits. -/
def StatusEncoder.allStatuses (enc : StatusEncoder) : List Byte :=
  completions 0 (enc.unspecifiedBits [])

theorem StatusEncoder.statusesOf_eq {enc : StatusEncoder} {v : InstructionVariant}
    {statuses : List Byte} (h : enc.expandPartial v.statusConditions = .ok statuses) :
    enc.statusesOf v = statuses := by
  unfold statusesOf
  rw [h]

theorem StatusEncoder.mem_allStatuses {enc : StatusEncoder} {s : Byte} :
    s ∈ enc.allStatuses ↔ ∀ j, s.getLsbD j = true → ∃ b ∈ enc.bits, b.bit = j := by
  unfold allStatuses
  rw [mem_completions]
  constructor
  · rintro ⟨-, h⟩ j hj
    rcases h j hj with hz | hmem
    · simp at hz
    · rcases mem_unspecifiedBits.mp hmem with ⟨b, hb, hbj, -⟩
      exact ⟨b, hb, hbj⟩
  · intro h
    refine ⟨fun j hj => by simp at hj, ?_⟩
    intro j hj
    rcases h j hj with ⟨b, hb, hbj⟩
    exact .inr (mem_unspecifiedBits.mpr ⟨b, hb, hbj, rfl⟩)

theorem StatusEncoder.allStatuses_length (enc : StatusEncoder) :
    enc.allStatuses.length = 2 ^ enc.bits.length := by
  unfold allStatuses unspecifiedBits
  rw [completions_length, List.length_map]
  exact congrArg (fun l => 2 ^ List.length l) (List.filter_eq_self.mpr fun _ _ => rfl)

theorem StatusEncoder.statusesOf_subset {enc : StatusEncoder} (v : InstructionVariant) :
    enc.statusesOf v ⊆ enc.allStatuses := by
  intro s hs
  cases h : enc.expandPartial v.statusConditions with
  | error e =>
      unfold statusesOf at hs
      rw [h] at hs
      cases hs
  | ok statuses =>
      rw [statusesOf_eq h] at hs
      rw [mem_allStatuses]
      intro j hj
      rcases ((mem_expandPartial h s).mp hs).2 j hj with ⟨b, hb, hbj, -⟩
      exact ⟨b, hb, hbj⟩

theorem coverStatuses_eq_ok {opcode : Byte} {covered statuses covered' : List Byte}
    (hc : covered.Nodup) :
    coverStatuses opcode covered statuses = .ok covered' ↔
      covered'.Nodup ∧ covered' = statuses.reverse ++ covered := by
  unfold coverStatuses
  induction statuses generalizing covered with
  | nil =>
      constructor
      · intro h
        cases h
        exact ⟨hc, rfl⟩
      · rintro ⟨-, rfl⟩
        rfl
  | cons s statuses ih =>
      rw [foldlM_cons_eq_ok]
      constructor
      · rintro ⟨covered₁, h₁, hrest⟩
        split at h₁
        · cases h₁
        · rename_i hnew
          cases h₁
          rcases (ih (List.nodup_cons.mpr ⟨hnew, hc⟩)).mp hrest with ⟨hnd, heq⟩
          refine ⟨hnd, ?_⟩
          rw [heq, List.reverse_cons, List.append_assoc]
          rfl
      · rintro ⟨hnd, heq⟩
        rw [List.reverse_cons, List.append_assoc] at heq
        have hnd' := hnd
        rw [heq, List.nodup_append] at hnd'
        have hnew : s ∉ covered := (List.nodup_cons.mp hnd'.2.1).1
        exact ⟨s :: covered, if_neg hnew, (ih (List.nodup_cons.mpr ⟨hnew, hc⟩)).mpr ⟨hnd, heq⟩⟩

theorem coverVariants_eq_ok {enc : StatusEncoder} {opcode : Byte} {vs : List InstructionVariant}
    {covered covered' : List Byte} (hc : covered.Nodup)
    (h : vs.foldlM (coverVariant enc opcode) covered = .ok covered') :
    covered'.Nodup ∧ covered' = (vs.flatMap enc.statusesOf).reverse ++ covered ∧
      ∀ v ∈ vs, ∃ statuses, enc.expandPartial v.statusConditions = .ok statuses := by
  induction vs generalizing covered with
  | nil =>
      cases h
      exact ⟨hc, rfl, fun v hv => (by cases hv)⟩
  | cons v vs ih =>
      rcases foldlM_cons_eq_ok.mp h with ⟨covered₁, h₁, hrest⟩
      unfold coverVariant at h₁
      rcases bind_eq_ok.mp (seq_eq_ok.mp h₁).2 with ⟨statuses, hs, h₁⟩
      rcases (coverStatuses_eq_ok hc).mp h₁ with ⟨hnd₁, heq₁⟩
      rcases ih hnd₁ hrest with ⟨hnd, heq, hexp⟩
      refine ⟨hnd, ?_, ?_⟩
      · rw [heq, heq₁, List.flatMap_cons, List.reverse_append, List.append_assoc,
          StatusEncoder.statusesOf_eq hs]
      · intro w hw
        rcases List.mem_cons.mp hw with rfl | hw
        · exact ⟨statuses, hs⟩
        · exact hexp w hw

theorem exists_unconditional {i : Instruction} (h : i.isUnconditional = true) :
    ∃ v, i.variants = [v] ∧ v.statusConditions = [] := by
  unfold Instruction.isUnconditional at h
  split at h
  · rename_i v hv
    exact ⟨v, hv, List.isEmpty_iff.mp h⟩
  · cases h

theorem statusesOf_unconditional (enc : StatusEncoder) {v : InstructionVariant}
    (h : v.statusConditions = []) : enc.statusesOf v = enc.allStatuses := by
  rcases enc.expandPartial_nil with ⟨statuses, hs, -⟩
  have hv : enc.expandPartial v.statusConditions = .ok statuses := by rw [h]; exact hs
  rw [StatusEncoder.statusesOf_eq hv, (StatusEncoder.expandPartial_eq hs).1]
  unfold StatusEncoder.allStatuses
  congr 1
  apply BitVec.eq_of_getLsbD_eq
  intro j _
  rw [Bool.eq_iff_iff, enc.getLsbD_base]
  simp

/-- The variants of a validated instruction partition the statuses. -/
theorem exists_variant_of_status {enc : StatusEncoder} {i : Instruction}
    (h : statusValidateInstruction enc i = .ok ()) (hne : i.variants ≠ []) {s : Byte}
    (hs : s ∈ enc.allStatuses) :
    ∃ v, i.variants.filter (fun v => decide (s ∈ enc.statusesOf v)) = [v] := by
  unfold statusValidateInstruction at h
  split at h
  · rename_i hu
    rcases exists_unconditional hu with ⟨v, hv, hcond⟩
    refine ⟨v, ?_⟩
    rw [hv, List.filter_cons_of_pos, List.filter_nil]
    rw [decide_eq_true_eq, statusesOf_unconditional enc hcond]
    exact hs
  · split at h
    · rename_i hempty
      exact absurd (List.isEmpty_iff.mp hempty) hne
    · rcases bind_eq_ok.mp h with ⟨covered, hcov, hlen⟩
      rcases coverVariants_eq_ok List.nodup_nil hcov with ⟨hnd, heq, -⟩
      rw [heq, List.append_nil, List.nodup_reverse] at hnd
      have hcount : (i.variants.flatMap enc.statusesOf).length = enc.allStatuses.length := by
        rw [heq, List.append_nil, List.length_reverse] at hlen
        rw [enc.allStatuses_length]
        exact not_not.mp (throwIf_eq_ok.mp hlen)
      have hsub : i.variants.flatMap enc.statusesOf ⊆ enc.allStatuses := by
        intro t ht
        rcases List.mem_flatMap.mp ht with ⟨v, -, hv⟩
        exact enc.statusesOf_subset v hv
      exact filter_eq_singleton_of_nodup_flatMap hnd
        (mem_of_nodup_subset_length hnd hsub (le_of_eq hcount.symm) hs)

/-- Two variants of a validated instruction that share a status are the same. -/
theorem variant_eq_of_status {enc : StatusEncoder} {i : Instruction}
    (h : statusValidateInstruction enc i = .ok ()) {v w : InstructionVariant}
    (hv : v ∈ i.variants) (hw : w ∈ i.variants) {s : Byte} (hsv : s ∈ enc.statusesOf v)
    (hsw : s ∈ enc.statusesOf w) : v = w := by
  rcases exists_variant_of_status h (List.ne_nil_of_mem hv) (enc.statusesOf_subset v hsv) with
    ⟨u, hu⟩
  have hvu : v ∈ [u] := by
    rw [← hu, List.mem_filter, decide_eq_true_eq]
    exact ⟨hv, hsv⟩
  have hwu : w ∈ [u] := by
    rw [← hu, List.mem_filter, decide_eq_true_eq]
    exact ⟨hw, hsw⟩
  rw [List.mem_singleton.mp hvu, List.mem_singleton.mp hwu]

end Irata2.Microcode
