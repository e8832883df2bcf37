import Irata2.Microcode.Encoding
import Mathlib.Data.List.Chain
import Mathlib.Data.List.Sort

/-!
# Instruction sets that compile

Conditions on an instruction set as it is written, before any pass has run, under which the
compiler accepts it.  The optimizers then change nothing but the preamble.
-/

namespace Irata2.Microcode

open Hdl Library

/-- A step as it is written: unstaged, without the controls of the step counter, and valid. -/
structure Step.IsSource (s : Step) : Prop where
  stage : s.stage = 0
  owner : ∀ c ∈ s.controls, c.owner ≠ .sc
  bus : busValidateStep s 0 0 = .ok ()
  conflict : conflictingComponents s = []

instance (s : Step) : Decidable s.IsSource :=
  decidable_of_iff
    (s.stage = 0 ∧ (∀ c ∈ s.controls, c.owner ≠ .sc) ∧ busValidateStep s 0 0 = .ok () ∧
      conflictingComponents s = [])
    ⟨fun h => ⟨h.1, h.2.1, h.2.2.1, h.2.2.2⟩, fun h => ⟨h.stage, h.owner, h.bus, h.conflict⟩⟩

/-- What the preamble becomes in the optimizers. -/
def optimizePreamble (preamble : List Step) : List Step :=
  mergeAdjacentSteps (removeDuplicateSteps (removeEmptySteps preamble))

/-- An instruction set that a compiler accepts. -/
structure Compiler.Accepts (c : Compiler) (is : InstructionSet) : Prop where
  increment : c.incrementControl = .scIncrement
  reset : c.resetControl = .scReset
  preamble : ∀ s ∈ is.fetchPreamble, s.IsSource
  preamble_chain : is.fetchPreamble.IsChain (· ≠ ·)
  merged : ∀ s ∈ optimizePreamble is.fetchPreamble, s.IsSource
  steps : ∀ i ∈ is.instructions, ∀ v ∈ i.variants, ∀ s ∈ v.steps, s.IsSource
  chain : ∀ i ∈ is.instructions, ∀ v ∈ i.variants, v.steps.IsChain (· ≠ ·)
  length : ∀ i ∈ is.instructions, ∀ v ∈ i.variants,
    is.fetchPreamble.length + v.steps.length ≤ 256
  statuses : ∀ i ∈ is.instructions, statusValidateInstruction c.statusEncoder i = .ok ()
  coverage : isaCoverageValidator is = .ok ()

/-! ## Steps -/

theorem Step.IsSource.busValid {s : Step} (h : s.IsSource) : BusValid s :=
  busValidateStep_eq_ok.mp h.bus

theorem conflictingComponents_eq_nil {s : Step} :
    conflictingComponents s = [] ↔ ∀ c ∈ s.controls, conflictKind s c.owner = none := by
  have hperm := List.perm_insertionSort (fun a b : Owner => a.path ≤ b.path)
    ((s.controls.map (·.owner)).filter fun o => (conflictKind s o).isSome)
  have hnil : conflictingComponents s = [] ↔
      ((s.controls.map (·.owner)).filter fun o => (conflictKind s o).isSome) = [] := by
    constructor
    · intro h
      exact List.perm_nil.mp (hperm.symm.trans (h ▸ List.Perm.refl _))
    · intro h
      exact List.perm_nil.mp (hperm.trans (h ▸ List.Perm.refl _))
  rw [hnil, List.filter_eq_nil_iff, List.forall_mem_map]
  simp only [Bool.not_eq_true, Option.isSome_eq_false_iff, Option.isNone_iff_eq_none]

/-- A step with the control that sequences it. -/
def Step.sequenced (s : Step) (control : Control) : Step :=
  { s with controls := s.controls ++ [control] }

section Sequenced

variable {s : Step} {control : Control}

theorem busValid_sequenced (h : BusValid s) (hbus : control.bus = none) :
    BusValid (s.sequenced control) := by
  have hw : ∀ bus, busWriters bus (s.sequenced control) = busWriters bus s := by
    intro bus
    unfold busWriters Step.sequenced
    rw [List.filter_append, List.filter_cons_of_neg, List.filter_nil, List.append_nil]
    rw [hbus]
    simp
  have hr : ∀ bus, busReaders bus (s.sequenced control) = busReaders bus s := by
    intro bus
    unfold busReaders Step.sequenced
    rw [List.filter_append, List.filter_cons_of_neg, List.filter_nil, List.append_nil]
    rw [hbus]
    simp
  intro bus
  rw [hw, hr]
  exact h bus

theorem hasOperation_sequenced (o : Owner) (op : Operation) :
    hasOperation (s.sequenced control) o op =
      (hasOperation s o op || (control.operation = some op && control.owner = o)) := by
  unfold hasOperation Step.sequenced
  rw [List.any_append, List.any_cons, List.any_nil, Bool.or_false]

theorem conflict_sequenced (h : conflictingComponents s = [])
    (hs : ∀ c ∈ s.controls, c.owner ≠ .sc)
    (hcontrol : control = .scIncrement ∨ control = .scReset) :
    conflictingComponents (s.sequenced control) = [] := by
  have howner : control.owner = .sc := by
    rcases hcontrol with rfl | rfl <;> rfl
  have hother : ∀ o, o ≠ .sc → conflictKind (s.sequenced control) o = conflictKind s o := by
    intro o ho
    unfold conflictKind
    simp only [hasOperation_sequenced, howner, ho.symm, decide_false, Bool.and_false,
      Bool.or_false]
  -- the counter's own control stands alone
  have hsc : conflictKind (s.sequenced control) .sc = none := by
    have hno : ∀ op, hasOperation s .sc op = false := by
      intro op
      unfold hasOperation
      rw [List.any_eq_false]
      intro c hc
      simp [hs c hc]
    unfold conflictKind
    simp only [hasOperation_sequenced, hno]
    rcases hcontrol with rfl | rfl <;> rfl
  rw [conflictingComponents_eq_nil]
  intro c hc
  by_cases ho : c.owner = .sc
  · rw [ho]
    exact hsc
  · rw [hother _ ho]
    rcases List.mem_append.mp hc with hc | hc
    · exact conflictingComponents_eq_nil.mp h c hc
    · rw [List.mem_singleton.mp hc] at ho
      exact absurd howner ho

end Sequenced

/-! ## Sequences of steps -/

theorem sequenceSteps_eq {steps : List Step} (h : ∀ s ∈ steps, ∀ c ∈ s.controls, c.owner ≠ .sc) :
    sequenceSteps .scIncrement .scReset steps = steps.zipIdx.map fun (s, i) =>
      s.sequenced (sequenceControl .scIncrement .scReset steps.length i) := by
  unfold sequenceSteps
  refine List.map_congr_left ?_
  rintro ⟨s, i⟩ hs
  refine if_neg fun hmem => h s (List.fst_mem_of_mem_zipIdx hs) _ hmem ?_
  unfold sequenceControl
  split <;> rfl

theorem sequenceControl_cases (length i : Nat) :
    sequenceControl .scIncrement .scReset length i = .scIncrement ∨
      sequenceControl .scIncrement .scReset length i = .scReset := by
  unfold sequenceControl
  split
  · exact .inr rfl
  · exact .inl rfl

theorem mem_sequenceSteps {steps : List Step} (h : ∀ s ∈ steps, ∀ c ∈ s.controls, c.owner ≠ .sc)
    {t : Step} (ht : t ∈ sequenceSteps .scIncrement .scReset steps) :
    ∃ s ∈ steps, ∃ control, (control = .scIncrement ∨ control = .scReset) ∧
      t = s.sequenced control := by
  rw [sequenceSteps_eq h, List.mem_map] at ht
  rcases ht with ⟨⟨s, i⟩, hs, rfl⟩
  exact ⟨s, List.fst_mem_of_mem_zipIdx hs, _, sequenceControl_cases _ _, rfl⟩

theorem sequenced_injective {s t : Step} {c d : Control} (h : s.sequenced c = t.sequenced d) :
    s = t := by
  rcases s with ⟨stage, controls⟩
  rcases t with ⟨stage', controls'⟩
  rcases Step.mk.inj h with ⟨hstage, hcontrols⟩
  exact congrArg₂ Step.mk hstage (List.append_inj' hcontrols rfl).1

theorem isChain_sequenceSteps {steps : List Step}
    (h : ∀ s ∈ steps, ∀ c ∈ s.controls, c.owner ≠ .sc) (hchain : steps.IsChain (· ≠ ·)) :
    (sequenceSteps .scIncrement .scReset steps).IsChain (· ≠ ·) := by
  rw [sequenceSteps_eq h, List.isChain_iff_getElem]
  intro i hi
  rw [List.length_map, List.length_zipIdx] at hi
  rw [List.getElem_map, List.getElem_map, List.getElem_zipIdx, List.getElem_zipIdx]
  intro heq
  exact List.isChain_iff_getElem.mp hchain i hi (sequenced_injective heq)

theorem removeDuplicateSteps_eq_self {steps : List Step} (h : steps.IsChain (· ≠ ·)) :
    removeDuplicateSteps steps = steps := by
  cases steps with
  | nil => rfl
  | cons s rest =>
      show dedupSteps s rest = s :: rest
      induction rest generalizing s with
      | nil => rfl
      | cons t rest ih =>
          rcases List.isChain_cons_cons.mp h with ⟨hne, hrest⟩
          unfold dedupSteps
          rw [if_neg hne.symm, ih t hrest]

theorem mem_of_mem_removeDuplicateSteps {steps : List Step} {s : Step}
    (h : s ∈ removeDuplicateSteps steps) : s ∈ steps := by
  have hdedup : ∀ (rest : List Step) (last : Step), s ∈ dedupSteps last rest →
      s = last ∨ s ∈ rest := by
    intro rest
    induction rest with
    | nil =>
        intro last hs
        exact .inl (List.mem_singleton.mp hs)
    | cons t rest ih =>
        intro last hs
        unfold dedupSteps at hs
        split at hs
        · exact (ih last hs).imp_right (List.mem_cons_of_mem _)
        · rcases List.mem_cons.mp hs with rfl | hs
          · exact .inl rfl
          · exact .inr (List.mem_cons.mpr (ih t hs))
  cases steps with
  | nil => exact h
  | cons t rest => exact List.mem_cons.mpr (hdedup rest t h)

private theorem le_foldl_max (l : List Control) (phase : TickPhase) :
    phase.toNat ≤ (l.foldl
        (fun phase c => if phase.toNat < c.phase.toNat then c.phase else phase) phase).toNat ∧
      ∀ c ∈ l, c.phase.toNat ≤ (l.foldl
        (fun phase c => if phase.toNat < c.phase.toNat then c.phase else phase) phase).toNat := by
  induction l generalizing phase with
  | nil => exact ⟨le_refl _, fun c hc => (by cases hc)⟩
  | cons d l ih =>
      rw [List.foldl_cons, List.forall_mem_cons]
      split
      · rename_i hlt
        rcases ih d.phase with ⟨hd, hl⟩
        exact ⟨by omega, hd, hl⟩
      · rename_i hle
        rcases ih phase with ⟨hp, hl⟩
        exact ⟨hp, by omega, hl⟩

private theorem foldl_min_le (l : List Control) (phase : TickPhase) :
    (l.foldl
        (fun phase c => if c.phase.toNat < phase.toNat then c.phase else phase) phase).toNat ≤
        phase.toNat ∧
      ∀ c ∈ l, (l.foldl
        (fun phase c => if c.phase.toNat < phase.toNat then c.phase else phase) phase).toNat ≤
        c.phase.toNat := by
  induction l generalizing phase with
  | nil => exact ⟨le_refl _, fun c hc => (by cases hc)⟩
  | cons d l ih =>
      rw [List.foldl_cons, List.forall_mem_cons]
      split
      · rename_i hlt
        rcases ih d.phase with ⟨hd, hl⟩
        exact ⟨by omega, hd, hl⟩
      · rename_i hle
        rcases ih phase with ⟨hp, hl⟩
        exact ⟨hp, by omega, hl⟩

/-- Two steps that both act in one phase are not merged. -/
theorem canMerge_eq_false {s t : Step} {c d : Control} (hc : c ∈ s.controls)
    (hd : d ∈ t.controls) (h : d.phase.toNat ≤ c.phase.toNat) : canMerge s t = false := by
  have hmax := (le_foldl_max s.controls .none).2 c hc
  have hmin := (foldl_min_le t.controls .clear).2 d hd
  have hprec : stepStrictlyPrecedes s t = false := by
    unfold stepStrictlyPrecedes
    rw [if_neg, if_neg, decide_eq_false_iff_not]
    · unfold maxPhase minPhase
      omega
    · rw [List.isEmpty_iff]
      exact List.ne_nil_of_mem hd
    · rw [List.isEmpty_iff]
      exact List.ne_nil_of_mem hc
  unfold canMerge
  rw [hprec, Bool.and_false]

theorem mergeAdjacentSteps_eq_self {steps : List Step}
    (h : ∀ s ∈ steps, ∃ c ∈ s.controls, c.phase = .process) : mergeAdjacentSteps steps = steps := by
  cases steps with
  | nil => rfl
  | cons s rest =>
      show mergeInto s rest = s :: rest
      induction rest generalizing s with
      | nil => rfl
      | cons t rest ih =>
          rcases h s List.mem_cons_self with ⟨c, hc, hcp⟩
          rcases h t (List.mem_cons_of_mem _ List.mem_cons_self) with ⟨d, hd, hdp⟩
          have hno : canMerge s t = false := canMerge_eq_false hc hd (by rw [hcp, hdp])
          unfold mergeInto
          rw [if_neg (by rw [hno]; decide),
            ih t fun u hu => h u (List.mem_cons_of_mem _ hu)]

/-- The optimizers leave sequenced steps alone. -/
theorem optimizers_sequenceSteps {steps : List Step}
    (h : ∀ s ∈ steps, ∀ c ∈ s.controls, c.owner ≠ .sc) (hchain : steps.IsChain (· ≠ ·)) :
    removeEmptySteps (sequenceSteps .scIncrement .scReset steps) =
        sequenceSteps .scIncrement .scReset steps ∧
      removeDuplicateSteps (sequenceSteps .scIncrement .scReset steps) =
        sequenceSteps .scIncrement .scReset steps ∧
      mergeAdjacentSteps (sequenceSteps .scIncrement .scReset steps) =
        sequenceSteps .scIncrement .scReset steps := by
  have hprocess : ∀ t ∈ sequenceSteps .scIncrement .scReset steps,
      ∃ c ∈ t.controls, c.phase = .process := by
    intro t ht
    rcases mem_sequenceSteps h ht with ⟨s, -, control, hcontrol, rfl⟩
    refine ⟨control, List.mem_append_right _ (List.mem_singleton_self _), ?_⟩
    rcases hcontrol with rfl | rfl <;> rfl
  refine ⟨?_, removeDuplicateSteps_eq_self (isChain_sequenceSteps h hchain),
    mergeAdjacentSteps_eq_self hprocess⟩
  refine List.filter_eq_self.mpr ?_
  intro t ht
  rcases hprocess t ht with ⟨c, hc, -⟩
  rw [Bool.not_eq_true', List.isEmpty_eq_false_iff]
  exact List.ne_nil_of_mem hc

/-! ## Stages -/

theorem checkMonotonic_eq_ok {error : Nat → Int → Int → MicrocodeError} {previous : Int} {i : Nat}
    {steps : List Step} :
    checkMonotonic error previous i steps = .ok () ↔
      (previous :: steps.map (·.stage)).IsChain (· ≤ ·) := by
  induction steps generalizing previous i with
  | nil => exact ⟨fun _ => List.IsChain.singleton previous, fun _ => rfl⟩
  | cons s rest ih =>
      unfold checkMonotonic
      rw [List.map_cons, List.isChain_cons_cons, ← ih (i := i + 1)]
      by_cases h : s.stage < previous
      · rw [if_pos h]
        exact ⟨(fun h => by cases h), fun hle => absurd h (not_lt.mpr hle.1)⟩
      · rw [if_neg h]
        exact (and_iff_right (not_lt.mp h)).symm

theorem insertionSort_dedup_eq {l m : List Int} (hm : m.Pairwise (· < ·))
    (h : ∀ x, x ∈ l ↔ x ∈ m) : l.dedup.insertionSort (· ≤ ·) = m := by
  have hperm : (l.dedup.insertionSort (· ≤ ·)).Perm m := by
    refine (List.perm_insertionSort _ _).trans ?_
    rw [List.perm_ext_iff_of_nodup l.nodup_dedup (hm.imp fun hab => ne_of_lt hab)]
    intro x
    rw [List.mem_dedup]
    exact h x
  exact hperm.eq_of_pairwise' (List.pairwise_insertionSort _ _) (hm.imp fun hab => le_of_lt hab)

theorem validateStages_append {start : Int → MicrocodeError}
    {monotonic : Nat → Int → Int → MicrocodeError} {gap : Int → Int → MicrocodeError}
    {l m : List Step} (hl : ∀ s ∈ l, s.stage = 0) (hm : ∀ s ∈ m, s.stage = 1)
    (h : l = [] → m = []) : validateStages start monotonic gap (l ++ m) = .ok () := by
  cases l with
  | nil =>
      rw [h rfl]
      rfl
  | cons s rest =>
      rcases List.forall_mem_cons.mp hl with ⟨hs, hrest⟩
      have hstages : ∀ x ∈ s :: rest ++ m, x.stage = 0 ∨ x.stage = 1 := by
        intro x hx
        rcases List.mem_append.mp hx with hx | hx
        · exact .inl (hl x hx)
        · exact .inr (hm x hx)
      -- the stages are zeros and then ones
      have hmono : (-1 :: (s :: rest ++ m).map (·.stage)).IsChain (· ≤ ·) := by
        refine List.Pairwise.isChain (List.pairwise_cons.mpr ⟨?_, ?_⟩)
        · intro x hx
          rcases List.mem_map.mp hx with ⟨t, ht, rfl⟩
          rcases hstages t ht with ht | ht <;> rw [ht] <;> decide
        · rw [List.pairwise_map, List.pairwise_append]
          refine ⟨List.pairwise_of_forall_mem_list fun a ha b hb => ?_,
            List.pairwise_of_forall_mem_list fun a ha b hb => ?_, fun a ha b hb => ?_⟩
          · rw [hl a ha, hl b hb]
          · rw [hm a ha, hm b hb]
          · rw [hl a ha, hm b hb]
            decide
      -- sorted without repetitions they are 0, or 0 and 1
      have hgap : checkGaps gap 0 (((s :: rest ++ m).map (·.stage)).dedup.insertionSort (· ≤ ·)) =
          .ok () := by
        by_cases hnil : m = []
        · rw [insertionSort_dedup_eq (m := [0]) (by decide)]
          · rfl
          · intro x
            rw [List.mem_map, List.mem_singleton, hnil, List.append_nil]
            constructor
            · rintro ⟨t, ht, rfl⟩
              exact hl t ht
            · rintro rfl
              exact ⟨s, List.mem_cons_self, hs⟩
        · rcases List.exists_mem_of_ne_nil m hnil with ⟨t, ht⟩
          rw [insertionSort_dedup_eq (m := [0, 1]) (by decide)]
          · rfl
          · intro x
            rw [List.mem_map, List.mem_pair]
            constructor
            · rintro ⟨u, hu, rfl⟩
              exact hstages u hu
            · rintro (rfl | rfl)
              · exact ⟨s, List.mem_append_left _ List.mem_cons_self, hs⟩
              · exact ⟨t, List.mem_append_right _ ht, hm t ht⟩
      refine seq_eq_ok.mpr ⟨throwIf_eq_ok.mpr (not_not.mpr hs), ?_⟩
      exact seq_eq_ok.mpr ⟨checkMonotonic_eq_ok.mpr hmono, hgap⟩

/-- The stages decide about a list of steps. -/
theorem validateStages_congr {start : Int → MicrocodeError}
    {monotonic : Nat → Int → Int → MicrocodeError} {gap : Int → Int → MicrocodeError}
    {l m : List Step} (h : l.map (·.stage) = m.map (·.stage))
    (hm : validateStages start monotonic gap m = .ok ()) :
    validateStages start monotonic gap l = .ok () := by
  cases l with
  | nil => rfl
  | cons s l =>
      cases m with
      | nil => cases h
      | cons t m =>
          rcases seq_eq_ok.mp hm with ⟨hstart, hrest⟩
          rcases seq_eq_ok.mp hrest with ⟨hmono, hgap⟩
          have hhead : s.stage = t.stage := (List.cons.inj h).1
          refine seq_eq_ok.mpr ⟨?_, seq_eq_ok.mpr ⟨?_, ?_⟩⟩
          · rw [throwIf_eq_ok] at *
            rw [hhead]
            exact hstart
          · rw [checkMonotonic_eq_ok] at *
            rw [h]
            exact hmono
          · rw [h]
            exact hgap

theorem map_stage_sequenceSteps (incrementControl resetControl : Control) (steps : List Step) :
    (sequenceSteps incrementControl resetControl steps).map (·.stage) = steps.map (·.stage) := by
  unfold sequenceSteps
  rw [List.map_map]
  conv_rhs => rw [← List.zipIdx_map_fst 0 steps, List.map_map]
  refine List.map_congr_left ?_
  rintro ⟨s, i⟩ -
  show (if _ then s else _ : Step).stage = s.stage
  split <;> rfl

/-! ## The passes -/

theorem optimize_eq {is : InstructionSet} {f : List Step → List Step}
    (h : ∀ i ∈ is.instructions, ∀ v ∈ i.variants, f v.steps = v.steps) :
    is.optimize f = { is with fetchPreamble := f is.fetchPreamble } := by
  have hv : ∀ i ∈ is.instructions, i.variants.map (·.mapSteps f) = i.variants := by
    intro i hi
    conv_rhs => rw [← List.map_id i.variants]
    refine List.map_congr_left fun v hv => ?_
    unfold InstructionVariant.mapSteps
    rw [h i hi v hv]
    rfl
  refine congrArg (InstructionSet.mk (f is.fetchPreamble)) ?_
  conv_rhs => rw [← List.map_id is.instructions]
  refine List.map_congr_left fun i hi => ?_
  show ({ i with variants := _ } : Instruction) = _
  rw [hv i hi]
  rfl

theorem isaCoverageValidator_mapVariants (is : InstructionSet)
    (f : InstructionVariant → InstructionVariant) :
    isaCoverageValidator (is.mapVariants f) = isaCoverageValidator is := by
  unfold isaCoverageValidator InstructionSet.mapVariants
  rw [List.foldlM_map]
  rfl

theorem statusValidateInstruction_mapSteps (enc : StatusEncoder) (i : Instruction)
    (f : List Step → List Step) :
    statusValidateInstruction enc { i with variants := i.variants.map (·.mapSteps f) } =
      statusValidateInstruction enc i := by
  have hun : ({ i with variants := i.variants.map (·.mapSteps f) } : Instruction).isUnconditional =
      i.isUnconditional := by
    unfold Instruction.isUnconditional
    rcases hv : i.variants with _ | ⟨v, _ | ⟨w, vs⟩⟩ <;> rfl
  have hfold : (i.variants.map (·.mapSteps f)).foldlM (coverVariant enc i.opcode) [] =
      i.variants.foldlM (coverVariant enc i.opcode) [] := by
    rw [List.foldlM_map]
    rfl
  unfold statusValidateInstruction
  rw [hun]
  show (if _ then _ else if (i.variants.map _).isEmpty then _ else _) = _
  rw [List.isEmpty_map]
  show (if _ then _ else if _ then _ else (i.variants.map _).foldlM _ _ >>= _) = _
  rw [hfold]

/-- The steps of a variant in the output of the compiler. -/
def compiledSteps (preamble steps : List Step) : List Step :=
  sequenceSteps .scIncrement .scReset (prefixSteps preamble steps)

/-- The output of the compiler's passes. -/
def compiled (is : InstructionSet) : InstructionSet :=
  { is.mapVariants (·.mapSteps (compiledSteps is.fetchPreamble)) with
    fetchPreamble := optimizePreamble is.fetchPreamble }

section Steps

variable {preamble steps : List Step}

theorem controls_of_mem_prefixSteps {s : Step} (h : s ∈ prefixSteps preamble steps) :
    ∃ t : Step, (t ∈ preamble ∨ t ∈ steps) ∧ s.controls = t.controls := by
  unfold prefixSteps at h
  split at h
  · exact ⟨s, .inr h, rfl⟩
  · rcases List.mem_append.mp h with h | h
    · exact ⟨s, .inl h, rfl⟩
    · rcases List.mem_map.mp h with ⟨t, ht, rfl⟩
      exact ⟨t, .inr ht, rfl⟩

/-- The steps in front of the sequencing are source steps up to their stage. -/
theorem exists_source_of_mem_prefixSteps (hp : ∀ s ∈ preamble, s.IsSource)
    (hs : ∀ s ∈ steps, s.IsSource) {s : Step} (h : s ∈ prefixSteps preamble steps) :
    ∃ t : Step, t.IsSource ∧ s.controls = t.controls := by
  rcases controls_of_mem_prefixSteps h with ⟨t, ht | ht, heq⟩
  · exact ⟨t, hp t ht, heq⟩
  · exact ⟨t, hs t ht, heq⟩

theorem owner_prefixSteps (hp : ∀ s ∈ preamble, s.IsSource) (hs : ∀ s ∈ steps, s.IsSource) :
    ∀ s ∈ prefixSteps preamble steps, ∀ c ∈ s.controls, c.owner ≠ .sc := by
  intro s h c hc
  rcases exists_source_of_mem_prefixSteps hp hs h with ⟨t, ht, heq⟩
  rw [heq] at hc
  exact ht.owner c hc

theorem isChain_prefixSteps (hp : ∀ s ∈ preamble, s.IsSource) (hs : ∀ s ∈ steps, s.IsSource)
    (hpc : preamble.IsChain (· ≠ ·)) (hsc : steps.IsChain (· ≠ ·)) :
    (prefixSteps preamble steps).IsChain (· ≠ ·) := by
  unfold prefixSteps
  split
  · exact hsc
  · refine hpc.append (List.isChain_map_of_isChain _ (fun a b hab heq => ?_) hsc) ?_
    · have hstage : a.stage = b.stage := by
        have h : a.stage + 1 = b.stage + 1 := congrArg Step.stage heq
        omega
      rcases a with ⟨stage, controls⟩
      exact hab (congrArg₂ Step.mk hstage (congrArg Step.controls heq))
    · intro a ha b hb heq
      -- the preamble is at stage 0 and the rest behind it
      rw [List.head?_map] at hb
      rcases Option.mem_map.mp hb with ⟨t, ht, rfl⟩
      have hstage := congrArg Step.stage heq
      rw [(hp a (List.mem_of_mem_getLast? ha)).stage] at hstage
      have hone : (0 : Int) = t.stage + 1 := hstage
      rw [(hs t (List.mem_of_mem_head? ht)).stage] at hone
      cases hone

theorem valid_of_mem_compiledSteps (hp : ∀ s ∈ preamble, s.IsSource)
    (hs : ∀ s ∈ steps, s.IsSource) {s : Step} (h : s ∈ compiledSteps preamble steps) :
    BusValid s ∧ conflictingComponents s = [] := by
  rcases mem_sequenceSteps (owner_prefixSteps hp hs) h with ⟨t, ht, control, hcontrol, rfl⟩
  rcases exists_source_of_mem_prefixSteps hp hs ht with ⟨u, hu, heq⟩
  have heq' : t.sequenced control = { u.sequenced control with stage := t.stage } := by
    unfold Step.sequenced
    rw [heq]
  have hbus : control.bus = none := by rcases hcontrol with rfl | rfl <;> rfl
  rw [heq']
  exact ⟨busValid_sequenced hu.busValid hbus, conflict_sequenced hu.conflict hu.owner hcontrol⟩

theorem validateStages_compiledSteps (hp : ∀ s ∈ preamble, s.IsSource)
    (hs : ∀ s ∈ steps, s.IsSource) (start : Int → MicrocodeError)
    (monotonic : Nat → Int → Int → MicrocodeError) (gap : Int → Int → MicrocodeError) :
    validateStages start monotonic gap (compiledSteps preamble steps) = .ok () := by
  refine validateStages_congr (map_stage_sequenceSteps _ _ _) ?_
  unfold prefixSteps
  split
  · rw [← List.append_nil steps]
    exact validateStages_append (fun s h => (hs s h).stage) (fun s h => (by cases h)) fun _ => rfl
  · rename_i hne
    refine validateStages_append (fun s h => (hp s h).stage) ?_ fun hnil => ?_
    · intro s h
      rcases List.mem_map.mp h with ⟨t, ht, rfl⟩
      show t.stage + 1 = 1
      rw [(hs t ht).stage]
      rfl
    · exact absurd (List.isEmpty_iff.mpr hnil) hne

theorem sequenceControl_mem_compiledSteps (hp : ∀ s ∈ preamble, s.IsSource)
    (hs : ∀ s ∈ steps, s.IsSource) {i : Nat} {s : Step}
    (h : (compiledSteps preamble steps)[i]? = some s) :
    sequenceControl .scIncrement .scReset (compiledSteps preamble steps).length i ∈ s.controls := by
  unfold compiledSteps at *
  rw [sequenceSteps_eq (owner_prefixSteps hp hs)] at *
  rw [List.length_map, List.length_zipIdx]
  rw [List.getElem?_map, List.getElem?_zipIdx] at h
  rcases Option.map_eq_some_iff.mp h with ⟨x, hx, rfl⟩
  rcases Option.map_eq_some_iff.mp hx with ⟨t, -, rfl⟩
  rw [Nat.zero_add]
  exact List.mem_append_right _ (List.mem_singleton_self _)

/-- The fetch validator finds the preamble again when it is all there is at stage 0. -/
theorem fetchValidateVariant_prefixSteps (hp : ∀ s ∈ preamble, s.stage = 0)
    (hs : ∀ s ∈ steps, 0 ≤ s.stage) (hne : ¬preamble.isEmpty = true) (i : Instruction)
    (v : InstructionVariant) (hv : v.steps = prefixSteps preamble steps) :
    fetchValidateVariant preamble i v = .ok () := by
  have hzero : v.steps.filter (fun s => decide (s.stage = 0)) = preamble := by
    rw [hv]
    unfold prefixSteps
    rw [if_neg hne, List.filter_append, List.filter_eq_self.mpr, List.filter_eq_nil_iff.mpr,
      List.append_nil]
    · intro s h
      rcases List.mem_map.mp h with ⟨t, ht, rfl⟩
      show ¬decide (t.stage + 1 = 0) = true
      have hstage := hs t ht
      rw [decide_eq_true_eq]
      omega
    · intro s h
      rw [decide_eq_true_eq]
      exact hp s h
  unfold fetchValidateVariant
  simp only [hzero]
  refine seq_eq_ok.mpr ⟨throwIf_eq_ok.mpr (not_not.mpr rfl), forM_eq_ok.mpr ?_⟩
  rintro ⟨⟨s, t⟩, k⟩ h
  rw [throwIf_eq_ok, not_not]
  have hmem := List.fst_mem_of_mem_zipIdx h
  rw [← List.map_id preamble, List.zip_map'] at hmem
  rcases List.mem_map.mp hmem with ⟨u, -, hu⟩
  cases hu
  rfl

end Steps

/-! ## Statuses -/

namespace StatusEncoder

variable {enc : StatusEncoder} {name : String}

/-- The encoder tells its bits apart, by name and by index. -/
structure Distinct (enc : StatusEncoder) : Prop where
  names : (enc.bits.map (·.name)).Nodup
  indices : (enc.bits.map (·.bit)).Nodup

instance (enc : StatusEncoder) : Decidable enc.Distinct :=
  decidable_of_iff ((enc.bits.map (·.name)).Nodup ∧ (enc.bits.map (·.bit)).Nodup)
    ⟨fun h => ⟨h.1, h.2⟩, fun h => ⟨h.names, h.indices⟩⟩

theorem expandPartial_singleton (hname : name ∈ enc.bits.map (·.name)) (value : Bool) :
    ∃ statuses, enc.expandPartial [(name, value)] = .ok statuses := by
  have hne : ¬enc.bits.isEmpty = true := by
    rw [List.isEmpty_iff]
    intro hnil
    rw [hnil] at hname
    cases hname
  have hfind : [(name, value)].find? (fun c => decide (c.1 ∉ enc.bits.map (·.name))) = none := by
    rw [List.find?_eq_none]
    intro c hc
    rw [List.mem_singleton.mp hc, decide_eq_true_eq, not_not]
    exact hname
  unfold expandPartial
  rw [if_neg hne, hfind]
  exact ⟨_, rfl⟩

/-- A condition on one bit holds in half of the statuses. -/
theorem length_expandPartial_singleton (h : enc.Distinct)
    (hname : name ∈ enc.bits.map (·.name)) {value : Bool} {statuses : List Byte}
    (hs : enc.expandPartial [(name, value)] = .ok statuses) :
    statuses.length * 2 = 2 ^ enc.bits.length := by
  have hone : enc.bits.countP (fun b => b.name == name) = 1 := by
    have hcount := List.count_eq_one_of_mem h.names hname
    rw [List.count, List.countP_map] at hcount
    exact hcount
  have hfree : (enc.unspecifiedBits [(name, value)]).length =
      enc.bits.countP fun b => !(b.name == name) := by
    unfold unspecifiedBits
    rw [List.length_map, ← List.countP_eq_length_filter]
    refine List.countP_congr fun b _ => ?_
    rw [List.lookup_cons, List.lookup_nil]
    cases b.name == name <;> simp
  have hsum := List.length_eq_countP_add_countP (fun b => b.name == name) (l := enc.bits)
  simp only [Bool.not_eq_true, Bool.decide_eq_false] at hsum
  rw [(expandPartial_eq hs).1, completions_length, ← pow_succ, hsum, hone, hfree, Nat.add_comm]

theorem nodup_expandPartial (h : enc.Distinct) {partialStatus : List (String × Bool)}
    {statuses : List Byte} (hs : enc.expandPartial partialStatus = .ok statuses) :
    statuses.Nodup := by
  rw [(expandPartial_eq hs).1]
  refine completions_nodup ?_ ?_ ?_
  · unfold unspecifiedBits
    exact h.indices.sublist (List.filter_sublist.map _)
  · intro j hj
    rcases mem_unspecifiedBits.mp hj with ⟨b, hb, rfl, -⟩
    exact enc.bits_lt b hb
  · intro j hj
    rcases mem_unspecifiedBits.mp hj with ⟨b, hb, rfl, hnone⟩
    rw [← Bool.not_eq_true, getLsbD_base]
    rintro ⟨d, hd, hbit, hsome⟩
    have hdb : d = b := List.inj_on_of_nodup_map h.indices hd hb hbit
    rw [hdb, hnone] at hsome
    cases hsome

end StatusEncoder

/-- Two variants that differ in the value of one status bit. -/
def Instruction.isBranching (enc : StatusEncoder) (i : Instruction) : Bool :=
  match i.variants with
  | [v, w] =>
      match v.statusConditions, w.statusConditions with
      | [c], [d] => decide (c.1 ∈ enc.bits.map (·.name)) && d == (c.1, !c.2)
      | _, _ => false
  | _ => false

theorem exists_branching {enc : StatusEncoder} {i : Instruction}
    (h : i.isBranching enc = true) :
    ∃ v w name value, i.variants = [v, w] ∧ v.statusConditions = [(name, value)] ∧
      w.statusConditions = [(name, !value)] ∧ name ∈ enc.bits.map (·.name) := by
  unfold Instruction.isBranching at h
  split at h
  · rename_i v w hvw
    split at h
    · rename_i c d hc hd
      rw [Bool.and_eq_true, decide_eq_true_eq, beq_iff_eq] at h
      rcases h with ⟨hname, rfl⟩
      exact ⟨v, w, c.1, c.2, hvw, hc, hd, hname⟩
    · cases h
  · cases h

/-- Two variants that differ in the value of one status bit partition the statuses. -/
theorem statusValidateInstruction_of_isBranching {enc : StatusEncoder} (h : enc.Distinct)
    {i : Instruction} (hi : i.isBranching enc = true) :
    statusValidateInstruction enc i = .ok () := by
  rcases exists_branching hi with ⟨v, w, name, value, hvw, hv, hw, hname⟩
  rcases StatusEncoder.expandPartial_singleton hname value with ⟨on, hon⟩
  rcases StatusEncoder.expandPartial_singleton hname (!value) with ⟨off, hoff⟩
  have hlon := StatusEncoder.length_expandPartial_singleton h hname hon
  have hloff := StatusEncoder.length_expandPartial_singleton h hname hoff
  have hnon := List.nodup_reverse.mpr (StatusEncoder.nodup_expandPartial h hon)
  have hnoff := List.nodup_reverse.mpr (StatusEncoder.nodup_expandPartial h hoff)
  rcases List.mem_map.mp hname with ⟨b, hb, rfl⟩
  -- the bit of the condition tells the two lists apart
  have hbit : ∀ u statuses, enc.expandPartial [(b.name, u)] = .ok statuses →
      ∀ s ∈ statuses, s.getLsbD b.bit = u := by
    intro u statuses hu s hs
    rcases (StatusEncoder.mem_expandPartial hu s).mp hs with ⟨htrue, hfalse⟩
    have hlookup : [(b.name, u)].lookup b.name = some u := by
      rw [List.lookup_cons, beq_self_eq_true]
    cases u with
    | true => exact htrue b hb hlookup
    | false =>
        rw [← Bool.not_eq_true]
        intro hset
        rcases hfalse _ hset with ⟨d, hd, hdb, hne⟩
        rw [List.inj_on_of_nodup_map h.indices hd hb hdb] at hne
        exact hne hlookup
  have hdisjoint : ∀ s ∈ off, ∀ t ∈ on, s ≠ t := by
    rintro s hs t ht rfl
    have hne := (hbit _ _ hoff s hs).symm.trans (hbit _ _ hon s ht)
    cases value <;> cases hne
  have hcover : i.variants.foldlM (coverVariant enc i.opcode) [] =
      .ok (off.reverse ++ on.reverse) := by
    have hfirst : coverVariant enc i.opcode [] v = .ok on.reverse := by
      unfold coverVariant
      rw [hv, hon]
      exact (coverStatuses_eq_ok List.nodup_nil).mpr ⟨hnon, (List.append_nil _).symm⟩
    have hsecond : coverVariant enc i.opcode on.reverse w = .ok (off.reverse ++ on.reverse) := by
      unfold coverVariant
      rw [hw, hoff]
      refine (coverStatuses_eq_ok hnon).mpr ⟨?_, rfl⟩
      rw [List.nodup_append]
      refine ⟨hnoff, hnon, ?_⟩
      intro s hs t ht
      exact hdisjoint s (List.mem_reverse.mp hs) t (List.mem_reverse.mp ht)
    rw [hvw]
    exact foldlM_cons_eq_ok.mpr ⟨_, hfirst, foldlM_cons_eq_ok.mpr ⟨_, hsecond, rfl⟩⟩
  unfold statusValidateInstruction
  split
  · rfl
  · split
    · rfl
    · refine bind_eq_ok.mpr ⟨_, hcover, throwIf_eq_ok.mpr (not_not.mpr ?_)⟩
      rw [List.length_append, List.length_reverse, List.length_reverse]
      omega

theorem statusValidateInstruction_of_isUnconditional {enc : StatusEncoder} {i : Instruction}
    (h : i.isUnconditional = true ∨ i.variants = []) :
    statusValidateInstruction enc i = .ok () := by
  unfold statusValidateInstruction
  rcases h with h | h
  · rw [if_pos h]
  · split
    · rfl
    · rw [if_pos (List.isEmpty_iff.mpr h)]

/-! ## Opcodes -/

theorem foldlM_coverOpcode {l : List Instruction} {seen : List Byte}
    (hisa : ∀ i ∈ l, i.opcode ∈ Isa.instructions.map (·.opcode))
    (hnodup : (l.map (·.opcode)).Nodup) (hnew : ∀ i ∈ l, i.opcode ∉ seen) :
    l.foldlM coverOpcode seen = .ok ((l.map (·.opcode)).reverse ++ seen) := by
  induction l generalizing seen with
  | nil => rfl
  | cons i l ih =>
      rw [List.map_cons, List.nodup_cons] at hnodup
      rw [foldlM_cons_eq_ok]
      refine ⟨i.opcode :: seen, ?_, ?_⟩
      · unfold coverOpcode
        rw [if_neg (not_not.mpr (hisa i List.mem_cons_self)), if_neg (hnew i List.mem_cons_self)]
      · rw [ih (fun j hj => hisa j (List.mem_cons_of_mem _ hj)) hnodup.2, List.map_cons,
          List.reverse_cons, List.append_assoc]
        · rfl
        · intro j hj
          rw [List.mem_cons, not_or]
          refine ⟨fun heq => hnodup.1 ?_, hnew j (List.mem_cons_of_mem _ hj)⟩
          rw [← heq]
          exact List.mem_map_of_mem hj

/-- A permutation of the opcodes of the ISA covers the ISA. -/
theorem isaCoverageValidator_of_perm {is : InstructionSet}
    (h : (is.instructions.map (·.opcode)).Perm (Isa.instructions.map (·.opcode))) :
    isaCoverageValidator is = .ok () := by
  have hfold := @foldlM_coverOpcode is.instructions []
    (fun i hi => h.subset (List.mem_map_of_mem hi)) (h.nodup_iff.mpr Isa.opcodes_nodup)
    fun _ _ hmem => (by cases hmem)
  refine bind_eq_ok.mpr ⟨_, hfold, throwIf_eq_ok.mpr (not_not.mpr ?_)⟩
  rw [List.append_nil, List.length_reverse, h.length_eq, List.length_map]

/-! ## Acceptance -/

theorem expandPartial_of_statusValid {enc : StatusEncoder} {i : Instruction}
    (h : statusValidateInstruction enc i = .ok ()) {v : InstructionVariant}
    (hv : v ∈ i.variants) : ∃ statuses, enc.expandPartial v.statusConditions = .ok statuses := by
  unfold statusValidateInstruction at h
  split at h
  · rename_i hu
    rcases exists_unconditional hu with ⟨w, hw, hcond⟩
    rw [hw, List.mem_singleton] at hv
    subst hv
    rw [hcond]
    exact ⟨_, enc.expandPartial_nil.choose_spec.1⟩
  · split at h
    · rename_i hempty
      rw [List.isEmpty_iff.mp hempty] at hv
      cases hv
    · rcases bind_eq_ok.mp h with ⟨covered, hcov, -⟩
      exact (coverVariants_eq_ok List.nodup_nil hcov).2.2 v hv

namespace Compiler

variable {c : Compiler} {is : InstructionSet}

theorem sequenceTransformer_fetchTransformer (is : InstructionSet) :
    sequenceTransformer .scIncrement .scReset (fetchTransformer is) =
      is.mapVariants (·.mapSteps (compiledSteps is.fetchPreamble)) := by
  unfold sequenceTransformer fetchTransformer InstructionSet.mapVariants
  simp only [List.map_map, Function.comp_def]
  rfl

theorem fetchValidator_fetchTransformer (h : c.Accepts is) :
    fetchValidator (fetchTransformer is) = .ok () := by
  unfold fetchValidator
  show (if is.fetchPreamble.isEmpty then _ else _) = _
  split
  · rfl
  · rename_i hne
    rw [forVariants_eq_ok]
    intro i hi v hv
    rcases List.mem_map.mp hi with ⟨j, hj, rfl⟩
    rcases List.mem_map.mp hv with ⟨w, hw, rfl⟩
    exact fetchValidateVariant_prefixSteps (fun s hs => (h.preamble s hs).stage)
      (fun s hs => le_of_eq (h.steps j hj w hw s hs).stage.symm) hne _ _ rfl

/-- Every set of validators of the pipeline passes, whatever the optimizers made of the
preamble. -/
theorem runAllValidators_eq_ok (h : c.Accepts is) {preamble : List Step}
    (hpre : ∀ s ∈ preamble, s.IsSource) :
    c.runAllValidators
      { is.mapVariants (·.mapSteps (compiledSteps is.fetchPreamble)) with
        fetchPreamble := preamble } = .ok () := by
  have hvalid := fun {i} hi {v} hv {s} hs =>
    @valid_of_mem_compiledSteps is.fetchPreamble v.steps h.preamble (h.steps i hi v hv) s hs
  unfold runAllValidators
  rw [h.increment, h.reset]
  refine seq_eq_ok.mpr ⟨?_, seq_eq_ok.mpr ⟨?_, seq_eq_ok.mpr ⟨?_, seq_eq_ok.mpr ⟨?_,
    seq_eq_ok.mpr ⟨?_, ?_⟩⟩⟩⟩⟩
  · refine forSteps_eq_ok.mpr ⟨fun k s hs => ?_, ?_⟩
    · exact busValidateStep_eq_ok.mpr (hpre s (List.mem_of_getElem? hs)).busValid
    · intro i hi v hv k s hs
      rcases List.mem_map.mp hi with ⟨j, hj, rfl⟩
      rcases List.mem_map.mp hv with ⟨w, hw, rfl⟩
      exact busValidateStep_eq_ok.mpr (hvalid hj hw (List.mem_of_getElem? hs)).1
  · refine forSteps_eq_ok.mpr ⟨fun k s hs => ?_, ?_⟩
    · unfold conflictValidateStep
      rw [(hpre s (List.mem_of_getElem? hs)).conflict]
    · intro i hi v hv k s hs
      rcases List.mem_map.mp hi with ⟨j, hj, rfl⟩
      rcases List.mem_map.mp hv with ⟨w, hw, rfl⟩
      unfold conflictValidateStep
      rw [(hvalid hj hw (List.mem_of_getElem? hs)).2]
  · refine seq_eq_ok.mpr ⟨?_, forVariants_eq_ok.mpr ?_⟩
    · rw [← List.append_nil preamble]
      exact validateStages_append (fun s hs => (hpre s hs).stage) (fun s hs => (by cases hs))
        fun _ => rfl
    · intro i hi v hv
      rcases List.mem_map.mp hi with ⟨j, hj, rfl⟩
      rcases List.mem_map.mp hv with ⟨w, hw, rfl⟩
      exact validateStages_compiledSteps h.preamble (h.steps j hj w hw) _ _ _
  · refine forM_eq_ok.mpr fun i hi => ?_
    rcases List.mem_map.mp hi with ⟨j, hj, rfl⟩
    rw [statusValidateInstruction_mapSteps]
    exact h.statuses j hj
  · exact (isaCoverageValidator_mapVariants is _).trans h.coverage
  · refine forVariants_eq_ok.mpr ?_
    intro i hi v hv
    rcases List.mem_map.mp hi with ⟨j, hj, rfl⟩
    rcases List.mem_map.mp hv with ⟨w, hw, rfl⟩
    refine forM_eq_ok.mpr fun x hx => throwIf_eq_ok.mpr (not_not.mpr ?_)
    exact sequenceControl_mem_compiledSteps h.preamble (h.steps j hj w hw)
      (List.mem_zipIdx_iff_getElem?.mp hx)

/-- The optimised representation of an accepted instruction set. -/
theorem optimizedIr_eq (h : c.Accepts is) : c.optimizedIr is = .ok (compiled is) := by
  have hfix : ∀ (preamble : List Step) (f : List Step → List Step),
      (∀ steps : List Step, (∀ s ∈ steps, ∀ c ∈ s.controls, c.owner ≠ .sc) →
        steps.IsChain (· ≠ ·) →
        f (sequenceSteps .scIncrement .scReset steps) =
          sequenceSteps .scIncrement .scReset steps) →
      ({ is.mapVariants (·.mapSteps (compiledSteps is.fetchPreamble)) with
        fetchPreamble := preamble } : InstructionSet).optimize f =
      { is.mapVariants (·.mapSteps (compiledSteps is.fetchPreamble)) with
        fetchPreamble := f preamble } := by
    intro preamble f hf
    refine optimize_eq ?_
    intro i hi v hv
    rcases List.mem_map.mp hi with ⟨j, hj, rfl⟩
    rcases List.mem_map.mp hv with ⟨w, hw, rfl⟩
    exact hf _ (owner_prefixSteps h.preamble (h.steps j hj w hw))
      (isChain_prefixSteps h.preamble (h.steps j hj w hw) h.preamble_chain (h.chain j hj w hw))
  have hempty : ∀ s ∈ removeEmptySteps is.fetchPreamble, s.IsSource :=
    fun s hs => h.preamble s (List.mem_of_mem_filter hs)
  have hdup : ∀ s ∈ removeDuplicateSteps (removeEmptySteps is.fetchPreamble), s.IsSource :=
    fun s hs => hempty s (mem_of_mem_removeDuplicateSteps hs)
  unfold optimizedIr
  rw [h.increment, h.reset]
  refine seq_eq_ok.mpr ⟨fetchValidator_fetchTransformer h, ?_⟩
  rw [sequenceTransformer_fetchTransformer]
  refine seq_eq_ok.mpr ⟨runAllValidators_eq_ok h h.preamble, ?_⟩
  rw [show is.mapVariants (·.mapSteps (compiledSteps is.fetchPreamble)) =
      { is.mapVariants (·.mapSteps (compiledSteps is.fetchPreamble)) with
        fetchPreamble := is.fetchPreamble } from rfl,
    hfix _ _ fun steps hs hc => (optimizers_sequenceSteps hs hc).1]
  refine seq_eq_ok.mpr ⟨runAllValidators_eq_ok h hempty, ?_⟩
  rw [hfix _ _ fun steps hs hc => (optimizers_sequenceSteps hs hc).2.1]
  refine seq_eq_ok.mpr ⟨runAllValidators_eq_ok h hdup, ?_⟩
  rw [hfix _ _ fun steps hs hc => (optimizers_sequenceSteps hs hc).2.2]
  exact seq_eq_ok.mpr ⟨runAllValidators_eq_ok h h.merged, rfl⟩

/-- An accepted instruction set compiles. -/
theorem exists_compile (h : c.Accepts is) : ∃ p, c.compile is = .ok p := by
  have hvalid := runAllValidators_eq_ok h h.merged
  have h₃ := (seq_eq_ok.mp (seq_eq_ok.mp (seq_eq_ok.mp hvalid).2).2).2
  have hst := forM_eq_ok.mp (seq_eq_ok.mp h₃).1
  have hop := nodup_of_isaCoverageValidator (seq_eq_ok.mp (seq_eq_ok.mp h₃).2).1
  have henc : ∀ i ∈ (compiled is).instructions, ∀ v ∈ i.variants,
      Encodable c.statusEncoder v := by
    intro i hi v hv
    refine ⟨expandPartial_of_statusValid (hst i hi) hv, ?_⟩
    rcases List.mem_map.mp hi with ⟨j, hj, rfl⟩
    rcases List.mem_map.mp hv with ⟨w, hw, rfl⟩
    have hlen := h.length j hj w hw
    show (compiledSteps is.fetchPreamble w.steps).length ≤ 256
    rw [compiledSteps, sequenceSteps, List.length_map, List.length_zipIdx, prefixSteps]
    split
    · omega
    · rw [List.length_append, List.length_map]
      exact hlen
  rcases exists_encode hop hst henc with ⟨p, hp⟩
  exact ⟨p, bind_eq_ok.mpr ⟨compiled is, optimizedIr_eq h, hp⟩⟩

end Compiler

end Irata2.Microcode
