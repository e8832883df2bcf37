import Irata2.Microcode.Passes

/-!
# The pipeline on arbitrary instruction sets

What `Compile` makes of an instruction set that it accepts: where the fetch ends in the optimised
steps of a variant, why every opcode fetches by the same control words, and which sets the
optimizers can make invalid.
-/

namespace Irata2.Microcode

open Hdl Library

/-! ## The result of the passes -/

def Step.withControl (control : Control) (s : Step) : Step :=
  if control ∈ s.controls then s else { s with controls := s.controls ++ [control] }

theorem stage_withControl (control : Control) (s : Step) :
    (s.withControl control).stage = s.stage := by
  unfold Step.withControl
  split <;> rfl

def optimizeSteps (steps : List Step) : List Step :=
  mergeAdjacentSteps (removeDuplicateSteps (removeEmptySteps steps))

namespace Compiler

variable {c : Compiler} {is ir : InstructionSet}

/-- The representation that the first run of the validators sees. -/
def prepared (c : Compiler) (is : InstructionSet) : InstructionSet :=
  sequenceTransformer c.incrementControl c.resetControl (fetchTransformer is)

/-- The steps of a variant after the transformers. -/
def preparedSteps (c : Compiler) (preamble steps : List Step) : List Step :=
  sequenceSteps c.incrementControl c.resetControl (prefixSteps preamble steps)

/-- The steps of a variant after every pass. -/
def optimizedSteps (c : Compiler) (preamble steps : List Step) : List Step :=
  optimizeSteps (c.preparedSteps preamble steps)

/-- The representation that is encoded. -/
def optimized (c : Compiler) (is : InstructionSet) : InstructionSet :=
  { is.mapVariants (·.mapSteps (c.optimizedSteps is.fetchPreamble)) with
    fetchPreamble := optimizePreamble is.fetchPreamble }

theorem prepared_eq (c : Compiler) (is : InstructionSet) :
    c.prepared is = is.mapVariants (·.mapSteps (c.preparedSteps is.fetchPreamble)) := by
  unfold prepared sequenceTransformer fetchTransformer InstructionSet.mapVariants
  simp only [List.map_map, Function.comp_def]
  rfl

theorem mem_optimized {i : Instruction} (hi : i ∈ is.instructions) :
    ({ i with variants := i.variants.map (·.mapSteps (c.optimizedSteps is.fetchPreamble)) } :
      Instruction) ∈ (c.optimized is).instructions :=
  List.mem_map_of_mem hi

/-- What acceptance by the passes means, and what they return. -/
theorem of_optimizedIr (h : c.optimizedIr is = .ok ir) :
    fetchValidator (fetchTransformer is) = .ok () ∧ c.Valid (c.prepared is) ∧ c.Valid ir ∧
      ir = c.optimized is := by
  unfold optimizedIr at h
  rcases seq_eq_ok.mp h with ⟨hfetch, h₁⟩
  rcases seq_eq_ok.mp h₁ with ⟨hprepared, h₂⟩
  have h₄ := (seq_eq_ok.mp (seq_eq_ok.mp h₂).2).2
  rcases seq_eq_ok.mp h₄ with ⟨hvalid, hir⟩
  cases hir
  refine ⟨hfetch, runAllValidators_iff.mp hprepared, runAllValidators_iff.mp hvalid, ?_⟩
  show (((c.prepared is).optimize _).optimize _).optimize _ = _
  rw [prepared_eq]
  unfold InstructionSet.optimize InstructionSet.mapVariants
  simp only [List.map_map, Function.comp_def]
  rfl

end Compiler

/-! ## Where the fetch ends -/

/-- The stages of a variant that the fetch validator and the stage validator have seen. -/
theorem stages_of_fetch {preamble steps : List Step} (hne : preamble ≠ [])
    (hlen : ((prefixSteps preamble steps).filter fun s => s.stage = 0).length = preamble.length)
    (hstages : StagesValid ((prefixSteps preamble steps).map (·.stage))) :
    (∀ s ∈ preamble, s.stage = 0) ∧ ∀ s ∈ steps, 0 ≤ s.stage := by
  unfold prefixSteps at hlen hstages
  rw [if_neg (by rwa [List.isEmpty_iff])] at hlen hstages
  rw [List.filter_append, List.length_append] at hlen
  rcases hstages with hnil | ⟨hhead, hchain, -⟩
  · rw [List.map_eq_nil_iff, List.append_eq_nil_iff] at hnil
    exact absurd hnil.1 hne
  · have hmono := List.isChain_iff_pairwise.mp hchain
    rw [List.pairwise_cons] at hmono
    rcases List.exists_cons_of_ne_nil hne with ⟨p, ps, rfl⟩
    have hp : p.stage = 0 := Option.some.inj hhead
    have hnonneg : ∀ k ∈ (p :: ps ++ steps.map fun s => ({ s with stage := s.stage + 1 } : Step)).map
        (·.stage), 0 ≤ k := by
      intro k hk
      rw [List.cons_append, List.map_cons, List.mem_cons] at hk
      rcases hk with rfl | hk
      · exact le_of_eq hp.symm
      · have hle : p.stage ≤ k := (List.pairwise_cons.mp hmono.2).1 k hk
        rwa [hp] at hle
    rw [List.map_append, List.pairwise_append] at hmono
    -- a later stage in the preamble would leave too few steps at stage 0
    have hzero : ∀ s ∈ p :: ps, s.stage = 0 := by
      intro s hs
      by_contra hs₀
      have hrest : (steps.map fun s => ({ s with stage := s.stage + 1 } : Step)).filter
          (fun s => decide (s.stage = 0)) = [] := by
        rw [List.filter_eq_nil_iff]
        intro t ht
        rw [decide_eq_true_eq]
        have hle : s.stage ≤ t.stage :=
          hmono.2.2.2 _ (List.mem_map_of_mem hs) _ (List.mem_map_of_mem ht)
        have hs₁ : 0 ≤ s.stage := hnonneg _ (List.mem_map_of_mem (List.mem_append_left _ hs))
        omega
      rw [hrest, List.length_nil, Nat.add_zero] at hlen
      have hall := List.length_filter_eq_length_iff.mp hlen s hs
      rw [decide_eq_true_eq] at hall
      exact hs₀ hall
    refine ⟨hzero, fun s hs => ?_⟩
    have hpre : (p :: ps).filter (fun s => decide (s.stage = 0)) = p :: ps :=
      List.filter_eq_self.mpr fun t ht => decide_eq_true (hzero t ht)
    rw [hpre] at hlen
    have hnone := List.length_eq_zero_iff.mp (Nat.add_eq_left.mp hlen)
    have hmem : ({ s with stage := s.stage + 1 } : Step) ∈
        steps.map fun s => ({ s with stage := s.stage + 1 } : Step) := List.mem_map_of_mem hs
    have hs₁ : s.stage + 1 ≠ 0 := by
      have hno := List.filter_eq_nil_iff.mp hnone _ hmem
      rwa [decide_eq_true_eq] at hno
    have hs₂ : 0 ≤ s.stage + 1 :=
      hnonneg _ (List.mem_map_of_mem (List.mem_append_right _ hmem))
    omega

theorem forall_mem_optimizeSteps {P : Int → Prop} {steps : List Step}
    (h : ∀ s ∈ steps, P s.stage) : ∀ s ∈ optimizeSteps steps, P s.stage := by
  unfold optimizeSteps
  rw [mergeAdjacentSteps_eq, removeDuplicateSteps_eq]
  have hkey : ∀ f : Step → Step → Option Step,
      (∀ a b d, f a b = some d → b.stage = a.stage ∧ d.stage = a.stage) →
      ∀ a b d, f a b = some d → P a.stage → P b.stage → P d.stage := by
    intro f hf a b d hd ha _
    rw [(hf a b d hd).2]
    exact ha
  exact forall_mem_collapse (hkey _ stage_fuseMergeable)
    (forall_mem_collapse (hkey _ stage_fuseDuplicate)
      fun s hs => h s (List.mem_of_mem_filter hs))

/-- The optimizers work on the fetch and on the rest separately. -/
theorem optimizeSteps_append {l m : List Step} (hl : ∀ s ∈ l, s.stage = 0)
    (hm : ∀ s ∈ m, s.stage ≠ 0) :
    optimizeSteps (l ++ m) = optimizeSteps l ++ optimizeSteps m := by
  have hborder : ∀ (l m : List Step), (∀ s ∈ l, s.stage = 0) → (∀ s ∈ m, s.stage ≠ 0) →
      ∀ a ∈ l, ∀ b ∈ m, a.stage ≠ b.stage := by
    intro l m hl hm a ha b hb heq
    exact hm b hb (heq ▸ hl a ha)
  have hl₁ : ∀ s ∈ removeEmptySteps l, s.stage = 0 := fun s hs => hl s (List.mem_of_mem_filter hs)
  have hm₁ : ∀ s ∈ removeEmptySteps m, s.stage ≠ 0 := fun s hs => hm s (List.mem_of_mem_filter hs)
  have hl₂ : ∀ s ∈ removeDuplicateSteps (removeEmptySteps l), s.stage = 0 :=
    fun s hs => hl₁ s (mem_of_mem_removeDuplicateSteps hs)
  have hm₂ : ∀ s ∈ removeDuplicateSteps (removeEmptySteps m), s.stage ≠ 0 :=
    fun s hs => hm₁ s (mem_of_mem_removeDuplicateSteps hs)
  have hempty : removeEmptySteps (l ++ m) = removeEmptySteps l ++ removeEmptySteps m :=
    List.filter_append l m
  unfold optimizeSteps
  rw [hempty, removeDuplicateSteps_eq, collapse_append stage_fuseDuplicate (hborder _ _ hl₁ hm₁),
    ← removeDuplicateSteps_eq, ← removeDuplicateSteps_eq, mergeAdjacentSteps_eq,
    collapse_append stage_fuseMergeable (hborder _ _ hl₂ hm₂), ← mergeAdjacentSteps_eq,
    ← mergeAdjacentSteps_eq]

/-- In front of other steps, every step of a list is sequenced by an increment. -/
theorem map_zipIdx_withControl (incrementControl resetControl : Control) {l : List Step} {n : Nat}
    (h : l.length < n) :
    (l.zipIdx.map fun q => q.1.withControl (sequenceControl incrementControl resetControl n q.2)) =
      l.map (·.withControl incrementControl) := by
  conv_rhs => rw [← List.zipIdx_map_fst 0 l, List.map_map]
  refine List.map_congr_left ?_
  rintro ⟨s, i⟩ hs
  have hi := List.snd_lt_add_of_mem_zipIdx hs
  show s.withControl (sequenceControl _ _ _ i) = s.withControl incrementControl
  unfold sequenceControl
  rw [if_neg]
  omega

theorem sequenceSteps_append (incrementControl resetControl : Control) (l : List Step)
    {m : List Step} (hm : m ≠ []) :
    ∃ rest, sequenceSteps incrementControl resetControl (l ++ m) =
        l.map (·.withControl incrementControl) ++ rest ∧
      rest.map (·.stage) = m.map (·.stage) := by
  have hlen : 0 < m.length := List.length_pos_iff.mpr hm
  refine ⟨(m.zipIdx l.length).map fun q =>
    q.1.withControl (sequenceControl incrementControl resetControl (l ++ m).length q.2), ?_, ?_⟩
  · show (l ++ m).zipIdx.map _ = _
    rw [List.zipIdx_append, List.map_append, Nat.zero_add]
    refine congrArg₂ _ ?_ rfl
    apply map_zipIdx_withControl
    rw [List.length_append]
    omega
  · rw [List.map_map]
    conv_rhs => rw [← List.zipIdx_map_fst l.length m, List.map_map]
    refine List.map_congr_left ?_
    rintro ⟨s, i⟩ -
    exact stage_withControl _ s

/-- The last step of a list resets the counter, and the others increment it. -/
theorem sequenceSteps_concat (incrementControl resetControl : Control) (l : List Step)
    (s : Step) :
    sequenceSteps incrementControl resetControl (l ++ [s]) =
      l.map (·.withControl incrementControl) ++ [s.withControl resetControl] := by
  show (l ++ [s]).zipIdx.map _ = _
  rw [List.zipIdx_append, List.map_append, Nat.zero_add]
  have hlen : (l ++ [s]).length = l.length + 1 := List.length_append
  refine congrArg₂ _ ?_ ?_
  · apply map_zipIdx_withControl
    omega
  · show [s.withControl (sequenceControl _ _ (l ++ [s]).length l.length)] = _
    unfold sequenceControl
    rw [hlen, if_pos rfl]

namespace Compiler

variable {c : Compiler} {is ir : InstructionSet}

/-- The steps of the fetch after every pass, in a variant with or without steps of its own. -/
def fetchSteps (c : Compiler) (preamble : List Step) (own : Bool) : List Step :=
  optimizeSteps
    (if own then preamble.map (·.withControl c.incrementControl)
    else sequenceSteps c.incrementControl c.resetControl preamble)

/-- The optimised steps of a variant begin with the fetch, at stage 0, and no other step is at
stage 0. -/
theorem optimizedSteps_eq (c : Compiler) {preamble steps : List Step} (hne : preamble ≠ [])
    (hpre : ∀ s ∈ preamble, s.stage = 0) (hsteps : ∀ s ∈ steps, 0 ≤ s.stage) :
    ∃ rest, c.optimizedSteps preamble steps =
        c.fetchSteps preamble (!steps.isEmpty) ++ rest ∧
      (∀ s ∈ c.fetchSteps preamble (!steps.isEmpty), s.stage = 0) ∧ ∀ s ∈ rest, s.stage ≠ 0 := by
  have hjoined : prefixSteps preamble steps =
      preamble ++ steps.map fun s => ({ s with stage := s.stage + 1 } : Step) := by
    unfold prefixSteps
    rw [if_neg (by rwa [List.isEmpty_iff])]
  unfold optimizedSteps preparedSteps
  rw [hjoined]
  cases steps with
  | nil =>
      rw [List.map_nil, List.append_nil]
      refine ⟨[], (List.append_nil _).symm, ?_, fun s hs => by cases hs⟩
      refine forall_mem_optimizeSteps (P := (· = 0)) fun s hs => ?_
      have hmem : s.stage ∈ (sequenceSteps c.incrementControl c.resetControl preamble).map
          (·.stage) := List.mem_map_of_mem hs
      rw [map_stage_sequenceSteps] at hmem
      rcases List.mem_map.mp hmem with ⟨t, ht, hst⟩
      rw [← hst]
      exact hpre t ht
  | cons t ts =>
      rcases sequenceSteps_append c.incrementControl c.resetControl preamble
        (m := (t :: ts).map fun s => ({ s with stage := s.stage + 1 } : Step))
        (by rw [List.map_cons]; exact List.cons_ne_nil _ _) with ⟨rest, heq, hstages⟩
      have hfetch : ∀ s ∈ preamble.map (·.withControl c.incrementControl), s.stage = 0 := by
        intro s hs
        rcases List.mem_map.mp hs with ⟨p, hp, rfl⟩
        rw [stage_withControl]
        exact hpre p hp
      have hrest : ∀ s ∈ rest, s.stage ≠ 0 := by
        intro s hs
        have hmem : s.stage ∈ rest.map (·.stage) := List.mem_map_of_mem hs
        rw [hstages, List.map_map] at hmem
        rcases List.mem_map.mp hmem with ⟨u, hu, hst⟩
        have hst' : u.stage + 1 = s.stage := hst
        have hu₀ := hsteps u hu
        omega
      refine ⟨optimizeSteps rest, ?_, forall_mem_optimizeSteps (P := (· = 0)) hfetch,
        forall_mem_optimizeSteps (P := (· ≠ 0)) hrest⟩
      rw [heq, optimizeSteps_append hfetch hrest]
      rfl

/-- In a valid set with a preamble, every variant begins with the preamble. -/
theorem stages_of_validators (hfetch : fetchValidator (fetchTransformer is) = .ok ())
    (hvalid : c.Valid (c.prepared is)) (hne : is.fetchPreamble ≠ [])
    {i : Instruction} (hi : i ∈ is.instructions) {v : InstructionVariant} (hv : v ∈ i.variants) :
    (∀ s ∈ is.fetchPreamble, s.stage = 0) ∧ ∀ s ∈ v.steps, 0 ≤ s.stage := by
  unfold fetchValidator at hfetch
  rw [if_neg (by rw [List.isEmpty_iff]; exact hne), forVariants_eq_ok] at hfetch
  have hcheck := hfetch _ (List.mem_map_of_mem hi) _ (List.mem_map_of_mem hv)
  have hlen := not_not.mp (throwIf_eq_ok.mp (seq_eq_ok.mp hcheck).1)
  rw [prepared_eq] at hvalid
  have hstages := hvalid.stages _ (List.mem_map_of_mem hi) _ (List.mem_map_of_mem hv)
  refine stages_of_fetch hne hlen ?_
  rw [← map_stage_sequenceSteps c.incrementControl c.resetControl]
  exact hstages

/-! ## The fetch in the ROM -/

/-- The table of a compiled set at a step of an optimised variant. -/
theorem lookup_optimizedSteps {p : MicrocodeProgram} (h : c.compile is = .ok p) {i : Instruction}
    (hi : i ∈ is.instructions) {v : InstructionVariant} (hv : v ∈ i.variants) {k : Nat} {s : Step}
    (hs : (c.optimizedSteps is.fetchPreamble v.steps)[k]? = some s) {status : Byte}
    (hstatus : status ∈ c.statusEncoder.statusesOf v) :
    p.table.lookup (encodeKey ⟨i.opcode, BitVec.ofNat 8 k, status⟩) =
      some (encodeControls s.controls) := by
  rcases bind_eq_ok.mp h with ⟨ir, hir, henc⟩
  rcases (of_optimizedIr hir).2.2 with ⟨-, rfl⟩
  have he : IsEntry c.statusEncoder (c.optimized is)
      { i with variants := i.variants.map (·.mapSteps (c.optimizedSteps is.fetchPreamble)) }
      (v.mapSteps (c.optimizedSteps is.fetchPreamble)) k s status :=
    ⟨mem_optimized hi, List.mem_map_of_mem hv, hs, hstatus⟩
  have hl := lookup_of_isEntry henc he
  exact hl

/-- Every opcode fetches by the same control words: below the end of the fetch, the word of a step
does not depend on the opcode and the status, among the variants with steps of their own and among
those without. -/
theorem fetch_uniform {p : MicrocodeProgram} (h : c.compile is = .ok p)
    (hne : is.fetchPreamble ≠ []) {i₁ i₂ : Instruction} (hi₁ : i₁ ∈ is.instructions)
    (hi₂ : i₂ ∈ is.instructions) {v₁ v₂ : InstructionVariant} (hv₁ : v₁ ∈ i₁.variants)
    (hv₂ : v₂ ∈ i₂.variants) (hown : v₁.steps = [] ↔ v₂.steps = []) {s₁ s₂ : Byte}
    (hs₁ : s₁ ∈ c.statusEncoder.statusesOf v₁) (hs₂ : s₂ ∈ c.statusEncoder.statusesOf v₂) {j : Nat}
    (hj : j < ((c.optimizedSteps is.fetchPreamble v₁.steps).filter fun s => s.stage = 0).length) :
    ∃ word, p.table.lookup (encodeKey ⟨i₁.opcode, BitVec.ofNat 8 j, s₁⟩) = some word ∧
      p.table.lookup (encodeKey ⟨i₂.opcode, BitVec.ofNat 8 j, s₂⟩) = some word := by
  rcases bind_eq_ok.mp h with ⟨ir, hir, -⟩
  rcases of_optimizedIr hir with ⟨hfetch, hvalid, -, -⟩
  have hstages₁ := stages_of_validators hfetch hvalid hne hi₁ hv₁
  have hstages₂ := stages_of_validators hfetch hvalid hne hi₂ hv₂
  rcases c.optimizedSteps_eq hne hstages₁.1 hstages₁.2 with ⟨rest₁, heq₁, hzero, hrest⟩
  rcases c.optimizedSteps_eq hne hstages₂.1 hstages₂.2 with ⟨rest₂, heq₂, -, -⟩
  have hsame : v₁.steps.isEmpty = v₂.steps.isEmpty := by
    rw [Bool.eq_iff_iff, List.isEmpty_iff, List.isEmpty_iff]
    exact hown
  rw [heq₁, List.filter_append, List.filter_eq_self.mpr fun s hs => decide_eq_true (hzero s hs),
    List.filter_eq_nil_iff.mpr fun s hs => by simpa using hrest s hs, List.append_nil] at hj
  have hstep := List.getElem?_eq_getElem hj
  refine ⟨encodeControls ((c.fetchSteps is.fetchPreamble (!v₁.steps.isEmpty)).get ⟨j, hj⟩).controls,
    lookup_optimizedSteps h hi₁ hv₁ ?_ hs₁, lookup_optimizedSteps h hi₂ hv₂ ?_ hs₂⟩
  · rw [heq₁, List.getElem?_append_left hj]
    exact hstep
  · rw [heq₂, ← hsame, List.getElem?_append_left hj]
    exact hstep

/-- A compiler without status bits. -/
def statusless : Compiler := ⟨⟨[], StatusEncoder.bits_lt_nil⟩, .scIncrement, .scReset⟩

/-- Three opcodes of the ISA have a variant, one of them without steps of its own. -/
def bareSet : InstructionSet where
  fetchPreamble := [⟨0, [.pcIncrement]⟩]
  instructions := Isa.instructions.map fun i =>
    ⟨i.opcode,
      if i.opcode = 0x00 then [⟨[], [⟨0, [.crash]⟩], sorted_nil⟩]
      else if i.opcode = 0x01 then [⟨[], [⟨0, [.halt]⟩], sorted_nil⟩]
      else if i.opcode = 0x02 then [⟨[], [], sorted_nil⟩]
      else []⟩

theorem accepts_bareSet : statusless.Accepts bareSet where
  increment := rfl
  reset := rfl
  preamble := by decide
  preamble_chain := by decide
  merged := by decide
  steps := by decide +kernel
  chain := by decide +kernel
  length := by decide +kernel
  statuses := by
    have hshape : ∀ i ∈ bareSet.instructions, i.isUnconditional = true ∨ i.variants = [] := by
      decide +kernel
    exact fun i hi => statusValidateInstruction_of_isUnconditional (hshape i hi)
  coverage := by
    refine isaCoverageValidator_of_perm ?_
    unfold bareSet
    rw [List.map_map]
    exact List.Perm.refl _

def bareProgram : MicrocodeProgram :=
  ⟨[(0x10000, encodeControls [.pcIncrement, .scIncrement]),
    (0x10100, encodeControls [.halt, .scReset]),
    (0x20000, encodeControls [.pcIncrement, .scReset]),
    (0x00000, encodeControls [.pcIncrement, .scIncrement]),
    (0x00100, encodeControls [.crash, .scReset])], controlPaths, []⟩

theorem compile_bareSet : statusless.compile bareSet = .ok bareProgram :=
  bind_eq_ok.mpr ⟨_, optimizedIr_eq accepts_bareSet, by decide +kernel⟩

/-- The fetch of an opcode without steps of its own ends by resetting the step counter, and that
of any other opcode by incrementing it. -/
theorem fetch_not_uniform :
    ∃ i₁ ∈ bareSet.instructions, ∃ i₂ ∈ bareSet.instructions, ∃ v₁ ∈ i₁.variants,
      ∃ v₂ ∈ i₂.variants, statusless.compile bareSet = .ok bareProgram ∧
        bareSet.fetchPreamble ≠ [] ∧
        0 ∈ statusless.statusEncoder.statusesOf v₁ ∧ 0 ∈ statusless.statusEncoder.statusesOf v₂ ∧
        0 < ((statusless.optimizedSteps bareSet.fetchPreamble v₁.steps).filter
          fun s => s.stage = 0).length ∧
        0 < ((statusless.optimizedSteps bareSet.fetchPreamble v₂.steps).filter
          fun s => s.stage = 0).length ∧
        bareProgram.table.lookup (encodeKey ⟨i₁.opcode, 0, 0⟩) ≠
          bareProgram.table.lookup (encodeKey ⟨i₂.opcode, 0, 0⟩) := by
  refine ⟨⟨0x01, [⟨[], [⟨0, [.halt]⟩], sorted_nil⟩]⟩, by decide, ⟨0x02, [⟨[], [], sorted_nil⟩]⟩,
    by decide, _, List.mem_singleton_self _, _, List.mem_singleton_self _, compile_bareSet,
    by decide, by decide, by decide, by decide, by decide,
    by decide⟩

theorem fetch_uniform_bareSet :
    ∃ word, bareProgram.table.lookup (encodeKey ⟨0x01, 0, 0⟩) = some word ∧
      bareProgram.table.lookup (encodeKey ⟨0x00, 0, 0⟩) = some word :=
  fetch_uniform (j := 0) compile_bareSet (by decide)
    (show (⟨0x01, [⟨[], [⟨0, [.halt]⟩], sorted_nil⟩]⟩ : Instruction) ∈ bareSet.instructions by
      decide)
    (show (⟨0x00, [⟨[], [⟨0, [.crash]⟩], sorted_nil⟩]⟩ : Instruction) ∈ bareSet.instructions by
      decide)
    (List.mem_singleton_self _) (List.mem_singleton_self _) (by decide) (by decide)
    (by decide) (by decide)

/-! ## Optimizers and validators -/

theorem valid_passes (hfetch : fetchValidator (fetchTransformer is) = .ok ())
    (hvalid : c.runAllValidators (c.prepared is) = .ok ())
    (hpre : (∃ i ∈ is.instructions, i.variants ≠ []) ∨
      StagesValid ((removeEmptySteps is.fetchPreamble).map (·.stage))) :
    c.Valid ((c.prepared is).optimize removeEmptySteps) ∧
      c.Valid (((c.prepared is).optimize removeEmptySteps).optimize removeDuplicateSteps) ∧
      c.Valid ((((c.prepared is).optimize removeEmptySteps).optimize
        removeDuplicateSteps).optimize mergeAdjacentSteps) := by
  rw [runAllValidators_iff] at hvalid
  have hstages : StagesValid ((removeEmptySteps (c.prepared is).fetchPreamble).map (·.stage)) := by
    show StagesValid ((removeEmptySteps is.fetchPreamble).map (·.stage))
    rcases hpre with ⟨i, hi, hv⟩ | hpre
    · by_cases hne : is.fetchPreamble = []
      · rw [hne]
        exact .inl rfl
      · rcases List.exists_mem_of_ne_nil _ hv with ⟨v, hv⟩
        refine stagesValid_of_zero fun s hs => ?_
        exact (stages_of_validators hfetch hvalid hne hi hv).1 s (List.mem_of_mem_filter hs)
    · exact hpre
  have hempty := hvalid.optimize_removeEmptySteps hstages
  have hdup := hempty.optimize_removeDuplicateSteps
  exact ⟨hempty, hdup, hdup.optimize_mergeAdjacentSteps⟩

/-- After a successful fetch validation and first round of validators, the later rounds fail only
when the removal of empty steps leaves out a stage of a preamble that no variant begins with. -/
theorem optimizers_keep_valid (hfetch : fetchValidator (fetchTransformer is) = .ok ())
    (hvalid : c.runAllValidators (c.prepared is) = .ok ())
    (hpre : (∃ i ∈ is.instructions, i.variants ≠ []) ∨
      StagesValid ((removeEmptySteps is.fetchPreamble).map (·.stage))) :
    c.runAllValidators ((c.prepared is).optimize removeEmptySteps) = .ok () ∧
      c.runAllValidators
        (((c.prepared is).optimize removeEmptySteps).optimize removeDuplicateSteps) = .ok () ∧
      c.runAllValidators
        ((((c.prepared is).optimize removeEmptySteps).optimize removeDuplicateSteps).optimize
          mergeAdjacentSteps) = .ok () := by
  rcases valid_passes hfetch hvalid hpre with ⟨hempty, hdup, hmerge⟩
  exact ⟨runAllValidators_iff.mpr hempty, runAllValidators_iff.mpr hdup,
    runAllValidators_iff.mpr hmerge⟩

/-- A preamble with an empty stage, and no opcode with a variant. -/
def gapSet : InstructionSet where
  fetchPreamble := [⟨0, [.pcIncrement]⟩, ⟨1, []⟩, ⟨2, [.pcIncrement]⟩]
  instructions := Isa.instructions.map fun i => ⟨i.opcode, []⟩

theorem opcodes_prepared (c : Compiler) (is : InstructionSet) :
    (c.prepared is).instructions.map (·.opcode) = is.instructions.map (·.opcode) := by
  rw [prepared_eq]
  unfold InstructionSet.mapVariants
  rw [List.map_map]
  rfl

theorem optimizers_not_keep_valid :
    fetchValidator (fetchTransformer gapSet) = .ok () ∧
      statusless.runAllValidators (statusless.prepared gapSet) = .ok () ∧
      statusless.runAllValidators ((statusless.prepared gapSet).optimize removeEmptySteps) =
        .error (.preambleGap 1 2) := by
  refine ⟨by decide, runAllValidators_of_opcodes ?_ (by decide) (by decide)
    (by decide) (by decide) (by decide), by decide⟩
  rw [opcodes_prepared, gapSet, List.map_map]
  rfl

/-- A preamble with an empty step, and a variant with a step twice. -/
def repeatingSet : InstructionSet where
  fetchPreamble := [⟨0, [.pcIncrement]⟩, ⟨0, []⟩]
  instructions := Isa.instructions.map fun i =>
    ⟨i.opcode,
      if i.opcode = 0x01 then
        [⟨[], [⟨0, [.spIncrement]⟩, ⟨0, [.spIncrement]⟩, ⟨0, [.halt]⟩], sorted_nil⟩]
      else []⟩

/-- The first pass shortens the preamble and the second one the variant. -/
theorem optimizers_keep_valid_repeatingSet :
    let prepared := statusless.prepared repeatingSet
    let stripped := prepared.optimize removeEmptySteps
    let single := stripped.optimize removeDuplicateSteps
    (statusless.runAllValidators stripped = .ok () ∧ statusless.runAllValidators single = .ok () ∧
        statusless.runAllValidators (single.optimize mergeAdjacentSteps) = .ok ()) ∧
      (prepared.fetchPreamble.length = 2 ∧ stripped.fetchPreamble.length = 1) ∧
      (∃ i ∈ stripped.instructions, ∃ v ∈ i.variants, v.steps.length = 5) ∧
      ∀ i ∈ single.instructions, ∀ v ∈ i.variants, v.steps.length = 4 := by
  intro prepared stripped single
  have hopcodes : prepared.instructions.map (·.opcode) = Isa.instructions.map (·.opcode) := by
    rw [opcodes_prepared, repeatingSet, List.map_map]
    rfl
  have hvalid : statusless.runAllValidators prepared = .ok () :=
    runAllValidators_of_opcodes hopcodes (by decide +kernel) (by decide +kernel)
      (by decide +kernel) (by decide +kernel) (by decide +kernel)
  exact ⟨optimizers_keep_valid (by decide +kernel) hvalid (.inl (by decide +kernel)),
    by decide +kernel, by decide +kernel, by decide +kernel⟩

/-- A set that passes the fetch validator and the first round of validators gets through the
passes. -/
theorem optimizedIr_of_valid (hfetch : fetchValidator (fetchTransformer is) = .ok ())
    (hvalid : c.runAllValidators (c.prepared is) = .ok ())
    (hpre : (∃ i ∈ is.instructions, i.variants ≠ []) ∨
      StagesValid ((removeEmptySteps is.fetchPreamble).map (·.stage))) :
    c.optimizedIr is = .ok (c.optimized is) := by
  rcases valid_passes hfetch hvalid hpre with ⟨hempty, hdup, hmerge⟩
  rw [← runAllValidators_iff] at hempty hdup hmerge
  have hir : c.optimizedIr is = .ok ((((c.prepared is).optimize removeEmptySteps).optimize
      removeDuplicateSteps).optimize mergeAdjacentSteps) :=
    seq_eq_ok.mpr ⟨hfetch, seq_eq_ok.mpr ⟨hvalid, seq_eq_ok.mpr ⟨hempty, seq_eq_ok.mpr ⟨hdup,
      seq_eq_ok.mpr ⟨hmerge, rfl⟩⟩⟩⟩⟩
  rw [hir, (of_optimizedIr hir).2.2.2]

end Compiler

end Irata2.Microcode
