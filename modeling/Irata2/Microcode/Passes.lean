import Irata2.Library.Collapse
import Irata2.Microcode.Source

/-!
# What the passes preserve

For instruction sets of any shape: the transformers fix where the fetch ends, the optimizers work
within a stage, and none of them breaks what the validators have checked, except that the removal
of empty steps can leave a stage of the preamble without steps.
-/

namespace Irata2.Microcode

open Hdl Library

/-! ## The optimizers as collapses -/

def fuseDuplicate (a b : Step) : Option Step := if b = a then some a else none

def fuseMergeable (a b : Step) : Option Step :=
  if canMerge a b then some (mergeSteps a b) else none

theorem removeDuplicateSteps_eq (steps : List Step) :
    removeDuplicateSteps steps = collapse fuseDuplicate steps := by
  cases steps with
  | nil => rfl
  | cons s rest =>
      show dedupSteps s rest = collapseInto fuseDuplicate s rest
      induction rest generalizing s with
      | nil => rfl
      | cons t rest ih =>
          unfold dedupSteps
          by_cases h : t = s
          · rw [if_pos h, collapseInto_cons_some (if_pos h), ih]
          · rw [if_neg h, collapseInto_cons_none (if_neg h), ih]

theorem mergeAdjacentSteps_eq (steps : List Step) :
    mergeAdjacentSteps steps = collapse fuseMergeable steps := by
  cases steps with
  | nil => rfl
  | cons s rest =>
      show mergeInto s rest = collapseInto fuseMergeable s rest
      induction rest generalizing s with
      | nil => rfl
      | cons t rest ih =>
          unfold mergeInto
          by_cases h : canMerge s t = true
          · rw [if_pos h, collapseInto_cons_some (if_pos h), ih]
          · rw [if_neg h, collapseInto_cons_none (if_neg h), ih]

theorem fuseDuplicate_eq_some {a b c : Step} (h : fuseDuplicate a b = some c) :
    b = a ∧ c = a := by
  unfold fuseDuplicate at h
  split at h
  · exact ⟨‹_›, (Option.some.inj h).symm⟩
  · cases h

theorem fuseMergeable_eq_some {a b c : Step} (h : fuseMergeable a b = some c) :
    canMerge a b = true ∧ c = mergeSteps a b := by
  unfold fuseMergeable at h
  split at h
  · exact ⟨‹_›, (Option.some.inj h).symm⟩
  · cases h

theorem stage_fuseDuplicate (a b c : Step) (h : fuseDuplicate a b = some c) :
    b.stage = a.stage ∧ c.stage = a.stage := by
  rcases fuseDuplicate_eq_some h with ⟨rfl, rfl⟩
  exact ⟨rfl, rfl⟩

theorem stage_fuseMergeable (a b c : Step) (h : fuseMergeable a b = some c) :
    b.stage = a.stage ∧ c.stage = a.stage := by
  rcases fuseMergeable_eq_some h with ⟨hcan, rfl⟩
  unfold canMerge at hcan
  rw [Bool.and_eq_true, decide_eq_true_eq] at hcan
  exact ⟨hcan.1.symm, rfl⟩

/-! ## Merged steps -/

private theorem mem_foldl_union (l cs : List Control) (c : Control) :
    c ∈ l.foldl (fun cs c => if c ∈ cs then cs else cs ++ [c]) cs ↔ c ∈ cs ∨ c ∈ l := by
  induction l generalizing cs with
  | nil => simp
  | cons d l ih =>
      rw [List.foldl_cons, ih, List.mem_cons]
      by_cases hd : d ∈ cs
      · rw [if_pos hd]
        constructor
        · exact fun h => h.imp_right .inr
        · rintro (h | rfl | h)
          · exact .inl h
          · exact .inl hd
          · exact .inr h
      · rw [if_neg hd, List.mem_append, List.mem_singleton, or_assoc]

private theorem length_filter_foldl_union_le (p : Control → Bool) (l cs : List Control) :
    ((l.foldl (fun cs c => if c ∈ cs then cs else cs ++ [c]) cs).filter p).length ≤
      (cs.filter p).length + (l.filter p).length := by
  induction l generalizing cs with
  | nil => exact le_refl _
  | cons d l ih =>
      rw [List.foldl_cons]
      refine (ih _).trans ?_
      have hd : (List.filter p (d :: l)).length = (List.filter p [d]).length +
          (List.filter p l).length := by
        rw [← List.length_append, ← List.filter_append]
        rfl
      rw [hd]
      by_cases hmem : d ∈ cs
      · rw [if_pos hmem]
        omega
      · rw [if_neg hmem, List.filter_append, List.length_append]
        omega

theorem mem_mergeSteps {a b : Step} {c : Control} :
    c ∈ (mergeSteps a b).controls ↔ c ∈ a.controls ∨ c ∈ b.controls :=
  mem_foldl_union b.controls a.controls c

/-- Only three phases have controls. -/
theorem phase_cases (c : Control) :
    c.phase = .write ∨ c.phase = .read ∨ c.phase = .process := by
  cases c <;> simp [Control.phase]

theorem bus_eq_none_of_process {c : Control} (h : c.phase = .process) : c.bus = none := by
  cases c <;> simp_all [Control.phase, Control.bus]

theorem bus_ne_none_of_read {c : Control} (h : c.phase = .read) : c.bus ≠ none := by
  cases c <;> simp_all [Control.phase, Control.bus]

theorem phase_of_transfer {c : Control}
    (h : c.operation = some .read ∨ c.operation = some .write) : c.phase ≠ .process := by
  cases c <;> simp_all [Control.operation, Control.phase]

theorem phase_of_update {c : Control} {op : Operation} (h : c.operation = some op)
    (hop : op = .set ∨ op = .clear ∨ op = .increment ∨ op = .decrement) : c.phase = .process := by
  rcases hop with rfl | rfl | rfl | rfl <;> cases c <;> simp_all [Control.operation, Control.phase]

/-- Of two steps that are merged, either the first asserts nothing, or the second acts in the
Process phase and the first before it. -/
theorem canMerge_cases {a b : Step} (hb : BusValid b) (h : canMerge a b = true) :
    a.controls = [] ∨
      ((∀ c ∈ a.controls, c.phase ≠ .process) ∧ ∀ c ∈ b.controls, c.phase = .process) := by
  by_cases hnil : a.controls = []
  · exact .inl hnil
  · right
    have hlt : ∀ c ∈ a.controls, ∀ d ∈ b.controls, c.phase.toNat < d.phase.toNat := by
      intro c hc d hd
      by_contra hle
      rw [canMerge_eq_false hc hd (by omega)] at h
      cases h
    rcases List.exists_mem_of_ne_nil _ hnil with ⟨e, he⟩
    -- the second step cannot write a bus, so it cannot read one either
    have hwriters : ∀ bus, busWriters bus b = [] := by
      intro bus
      unfold busWriters
      rw [List.filter_eq_nil_iff]
      intro d hd hw
      have hed := hlt e he d hd
      simp only [Bool.and_eq_true, decide_eq_true_eq] at hw
      rw [hw.2] at hed
      rcases phase_cases e with h | h | h <;> rw [h] at hed <;> exact absurd hed (by decide)
    have hprocess : ∀ d ∈ b.controls, d.phase = .process := by
      intro d hd
      rcases phase_cases d with h | h | h
      · have hed := hlt e he d hd
        rw [h] at hed
        rcases phase_cases e with h | h | h <;> rw [h] at hed <;> exact absurd hed (by decide)
      · cases hbus : d.bus with
        | none => exact absurd hbus (bus_ne_none_of_read h)
        | some bus =>
            refine absurd (hwriters bus) ((hb bus).2 (List.ne_nil_of_mem (a := d) ?_))
            unfold busReaders
            rw [List.mem_filter]
            exact ⟨hd, by rw [hbus, h]; simp⟩
      · exact h
    refine ⟨fun c hc hp => ?_, hprocess⟩
    by_cases hb' : b.controls = []
    · unfold canMerge stepStrictlyPrecedes at h
      rw [if_neg (by rw [List.isEmpty_iff]; exact hnil), if_pos (by rw [hb']; rfl),
        Bool.and_false] at h
      cases h
    · rcases List.exists_mem_of_ne_nil _ hb' with ⟨d, hd⟩
      have hcd := hlt c hc d hd
      rw [hp, hprocess d hd] at hcd
      exact lt_irrefl _ hcd

theorem busValid_mergeSteps {a b : Step} (ha : BusValid a) (hb : BusValid b)
    (h : canMerge a b = true) : BusValid (mergeSteps a b) := by
  have hmem : ∀ (p : Control → Bool) (s : Step), s.controls.filter p ≠ [] →
      (s = a ∨ s = b) → (mergeSteps a b).controls.filter p ≠ [] := by
    intro p s hne hs
    rcases List.exists_mem_of_ne_nil _ hne with ⟨c, hc⟩
    rw [List.mem_filter] at hc
    refine List.ne_nil_of_mem (a := c) (List.mem_filter.mpr ⟨mem_mergeSteps.mpr ?_, hc.2⟩)
    rcases hs with rfl | rfl
    · exact .inl hc.1
    · exact .inr hc.1
  intro bus
  have hle := length_filter_foldl_union_le
    (fun c => c.bus = some bus && c.phase = .write) b.controls a.controls
  have hlen : (busWriters bus (mergeSteps a b)).length ≤
      (busWriters bus a).length + (busWriters bus b).length := hle
  refine ⟨?_, fun hr => ?_⟩
  · rcases canMerge_cases hb h with hnil | ⟨-, hprocess⟩
    · have hwa : busWriters bus a = [] := by
        unfold busWriters
        rw [hnil]
        rfl
      rw [hwa] at hlen
      exact hlen.trans (by simpa using (hb bus).1)
    · have hwb : busWriters bus b = [] := by
        unfold busWriters
        rw [List.filter_eq_nil_iff]
        intro c hc
        rw [bus_eq_none_of_process (hprocess c hc)]
        simp
      rw [hwb] at hlen
      exact hlen.trans (by simpa using (ha bus).1)
  · rcases List.exists_mem_of_ne_nil _ hr with ⟨c, hc⟩
    unfold busReaders at hc
    rw [List.mem_filter, mem_mergeSteps] at hc
    rcases hc with ⟨hc | hc, hread⟩
    · refine hmem _ a ((ha bus).2 ?_) (.inl rfl)
      exact List.ne_nil_of_mem (List.mem_filter.mpr ⟨hc, hread⟩)
    · refine hmem _ b ((hb bus).2 ?_) (.inr rfl)
      exact List.ne_nil_of_mem (List.mem_filter.mpr ⟨hc, hread⟩)

/-! ## Conflicts -/

/-- A step without conflicting controls. -/
def ConflictFree (s : Step) : Prop :=
  ∀ o, ¬(hasOperation s o .read = true ∧ hasOperation s o .write = true) ∧
    ¬(hasOperation s o .set = true ∧ hasOperation s o .clear = true) ∧
    ¬(hasOperation s o .increment = true ∧ hasOperation s o .decrement = true)

theorem hasOperation_eq_true {s : Step} {o : Owner} {op : Operation} :
    hasOperation s o op = true ↔ ∃ c ∈ s.controls, c.operation = some op ∧ c.owner = o := by
  unfold hasOperation
  simp only [List.any_eq_true, Bool.and_eq_true, decide_eq_true_eq]

theorem conflictKind_eq_none {s : Step} {o : Owner} :
    conflictKind s o = none ↔
      ¬(hasOperation s o .read = true ∧ hasOperation s o .write = true) ∧
        ¬(hasOperation s o .set = true ∧ hasOperation s o .clear = true) ∧
        ¬(hasOperation s o .increment = true ∧ hasOperation s o .decrement = true) := by
  unfold conflictKind
  simp only [← Bool.and_eq_true]
  split_ifs with h₁ h₂ h₃ <;> simp_all

theorem conflictValidateStep_eq_ok {s : Step} {opcode : Int} {step : Nat} :
    conflictValidateStep s opcode step = .ok () ↔ ConflictFree s := by
  have hnil : conflictingComponents s = [] ↔ ConflictFree s := by
    rw [conflictingComponents_eq_nil]
    constructor
    · intro h o
      by_cases ho : ∃ c ∈ s.controls, c.owner = o
      · rcases ho with ⟨c, hc, rfl⟩
        exact conflictKind_eq_none.mp (h c hc)
      · have hno : ∀ op, ¬hasOperation s o op = true := by
          intro op hop
          rcases hasOperation_eq_true.mp hop with ⟨c, hc, -, hco⟩
          exact ho ⟨c, hc, hco⟩
        exact ⟨fun h => hno _ h.1, fun h => hno _ h.1, fun h => hno _ h.1⟩
    · intro h c _
      exact conflictKind_eq_none.mpr (h c.owner)
  unfold conflictValidateStep
  rw [← hnil]
  cases hc : conflictingComponents s with
  | nil => exact iff_of_true rfl rfl
  | cons o os =>
      refine iff_of_false ?_ (List.cons_ne_nil o os)
      have hkind : (conflictKind s o).isSome = true := by
        have ho : o ∈ conflictingComponents s := by
          rw [hc]
          exact List.mem_cons_self
        have hperm := List.perm_insertionSort (fun a b : Owner => a.path ≤ b.path)
          ((s.controls.map (·.owner)).filter fun o => (conflictKind s o).isSome)
        exact (List.mem_filter.mp (hperm.subset ho)).2
      rcases Option.isSome_iff_exists.mp hkind with ⟨kind, hk⟩
      simp only [hk]
      exact fun h => (by cases h)

theorem conflictFree_mergeSteps {a b : Step} (ha : ConflictFree a) (hb : ConflictFree b)
    (hbb : BusValid b) (h : canMerge a b = true) :
    ConflictFree (mergeSteps a b) := by
  have hop : ∀ o op, hasOperation (mergeSteps a b) o op = true ↔
      hasOperation a o op = true ∨ hasOperation b o op = true := by
    intro o op
    simp only [hasOperation_eq_true, mem_mergeSteps]
    exact ⟨fun ⟨c, hc, hrest⟩ => hc.imp (fun h => ⟨c, h, hrest⟩) fun h => ⟨c, h, hrest⟩,
      fun h => h.elim (fun ⟨c, hc, hrest⟩ => ⟨c, .inl hc, hrest⟩)
        fun ⟨c, hc, hrest⟩ => ⟨c, .inr hc, hrest⟩⟩
  intro o
  simp only [hop]
  rcases canMerge_cases hbb h with hnil | ⟨hfirst, hsecond⟩
  · have hno : ∀ op, ¬hasOperation a o op = true := by
      intro op hop
      rcases hasOperation_eq_true.mp hop with ⟨c, hc, -⟩
      rw [hnil] at hc
      cases hc
    simp only [hno, Bool.false_eq_true, false_or]
    exact hb o
  · -- transfers come from the first step, the other pairs from the second
    have hnob : ∀ op, (op = .read ∨ op = .write) → ¬hasOperation b o op = true := by
      intro op hop hb'
      rcases hasOperation_eq_true.mp hb' with ⟨c, hc, hcop, -⟩
      refine phase_of_transfer ?_ (hsecond c hc)
      rcases hop with rfl | rfl
      · exact .inl hcop
      · exact .inr hcop
    have hnoa : ∀ op, (op = .set ∨ op = .clear ∨ op = .increment ∨ op = .decrement) →
        ¬hasOperation a o op = true := by
      intro op hop ha'
      rcases hasOperation_eq_true.mp ha' with ⟨c, hc, hcop, -⟩
      exact hfirst c hc (phase_of_update hcop hop)
    simp only [hnob _ (.inl rfl), hnob _ (.inr rfl), hnoa _ (.inl rfl),
      hnoa _ (.inr (.inl rfl)), hnoa _ (.inr (.inr (.inl rfl))),
      hnoa _ (.inr (.inr (.inr rfl))), Bool.false_eq_true, or_false, false_or]
    exact ⟨(ha o).1, (hb o).2⟩

/-! ## Stages -/

/-- The loop of `checkGaps` on the sorted stages. -/
def Consecutive : Int → List Int → Prop
  | _, [] => True
  | expected, stage :: rest => stage = expected ∧ Consecutive (expected + 1) rest

theorem checkGaps_eq_ok {error : Int → Int → MicrocodeError} {expected : Int} {l : List Int} :
    checkGaps error expected l = .ok () ↔ Consecutive expected l := by
  induction l generalizing expected with
  | nil => exact iff_of_true rfl trivial
  | cons stage rest ih =>
      unfold checkGaps Consecutive
      by_cases h : stage = expected
      · rw [if_neg (not_not.mpr h), ih]
        exact (and_iff_right h).symm
      · rw [if_pos h]
        exact ⟨(fun h => by cases h), fun hc => absurd hc.1 h⟩

/-- Stages that start at 0, never fall, and leave out no number. -/
def StagesValid (stages : List Int) : Prop :=
  stages = [] ∨
    (stages.head? = some 0 ∧ (-1 :: stages).IsChain (· ≤ ·) ∧
      Consecutive 0 (stages.dedup.insertionSort (· ≤ ·)))

theorem validateStages_eq_ok {start : Int → MicrocodeError}
    {monotonic : Nat → Int → Int → MicrocodeError} {gap : Int → Int → MicrocodeError}
    {steps : List Step} :
    validateStages start monotonic gap steps = .ok () ↔ StagesValid (steps.map (·.stage)) := by
  cases steps with
  | nil => exact iff_of_true rfl (.inl rfl)
  | cons s rest =>
      unfold validateStages StagesValid
      rw [seq_eq_ok, seq_eq_ok, throwIf_eq_ok, checkMonotonic_eq_ok, checkGaps_eq_ok, not_not,
        or_iff_right (by simp), List.map_cons, List.head?_cons, Option.some_inj]

/-- The stages that a collapse leaves are valid again: none is lost and none is moved. -/
theorem stagesValid_of_collapse {l m : List Int} (hsub : m.Sublist l) (hmem : ∀ k, k ∈ m ↔ k ∈ l)
    (hhead : m.head? = l.head?) (h : StagesValid l) : StagesValid m := by
  rcases h with rfl | ⟨h₀, hchain, hgaps⟩
  · exact .inl (List.sublist_nil.mp hsub)
  · right
    refine ⟨hhead.trans h₀, ?_, ?_⟩
    · rw [List.isChain_iff_pairwise] at hchain ⊢
      exact hchain.sublist (hsub.cons_cons _)
    · have hperm : m.dedup.Perm l.dedup := by
        rw [List.perm_ext_iff_of_nodup m.nodup_dedup l.nodup_dedup]
        intro k
        rw [List.mem_dedup, List.mem_dedup, hmem]
      have hsorted : m.dedup.insertionSort (· ≤ ·) = l.dedup.insertionSort (· ≤ ·) :=
        (((List.perm_insertionSort _ _).trans hperm).trans
          (List.perm_insertionSort _ _).symm).eq_of_pairwise'
          (List.pairwise_insertionSort _ _) (List.pairwise_insertionSort _ _)
      rw [hsorted]
      exact hgaps

theorem stagesValid_collapse {f : Step → Step → Option Step}
    (hf : ∀ a b c, f a b = some c → b.stage = a.stage ∧ c.stage = a.stage) {steps : List Step}
    (h : StagesValid (steps.map (·.stage))) : StagesValid ((collapse f steps).map (·.stage)) := by
  cases steps with
  | nil => exact .inl rfl
  | cons s rest =>
      rcases @map_collapseInto _ _ f Step.stage hf s rest with ⟨hsub, hmem, hhead⟩
      exact stagesValid_of_collapse hsub hmem hhead h

/-- The removal of steps from a list that stays within stage 0. -/
theorem stagesValid_of_zero {steps : List Step} (h : ∀ s ∈ steps, s.stage = 0) :
    StagesValid (steps.map (·.stage)) := by
  have hok : validateStages .preambleStart .preambleNotMonotonic .preambleGap (steps ++ []) =
      .ok () := validateStages_append h (fun s hs => by cases hs) fun _ => rfl
  rw [List.append_nil] at hok
  exact validateStages_eq_ok.mp hok

/-! ## Valid instruction sets -/

/-- What `RunAllValidators` checks. -/
structure Compiler.Valid (c : Compiler) (is : InstructionSet) : Prop where
  preamble : ∀ s ∈ is.fetchPreamble, BusValid s ∧ ConflictFree s
  steps : ∀ i ∈ is.instructions, ∀ v ∈ i.variants, ∀ s ∈ v.steps, BusValid s ∧ ConflictFree s
  preamble_stages : StagesValid (is.fetchPreamble.map (·.stage))
  stages : ∀ i ∈ is.instructions, ∀ v ∈ i.variants, StagesValid (v.steps.map (·.stage))
  statuses : ∀ i ∈ is.instructions, statusValidateInstruction c.statusEncoder i = .ok ()
  coverage : isaCoverageValidator is = .ok ()
  sequenced : ∀ i ∈ is.instructions, ∀ v ∈ i.variants,
    EndsWith (fun s => c.incrementControl ∈ s.controls) (fun s => c.resetControl ∈ s.controls)
      v.steps

theorem sequenceCheck_iff {incrementControl resetControl : Control} {steps : List Step} :
    (∀ k s, steps[k]? = some s →
        sequenceControl incrementControl resetControl steps.length k ∈ s.controls) ↔
      EndsWith (fun s => incrementControl ∈ s.controls) (fun s => resetControl ∈ s.controls)
        steps := by
  rw [endsWith_iff_getElem?]
  refine forall₂_congr fun k s => imp_congr_right fun _ => ?_
  unfold sequenceControl
  split <;> rfl

private theorem forall_getElem? {α : Type*} {l : List α} {P : α → Prop} :
    (∀ (k : Nat) x, l[k]? = some x → P x) ↔ ∀ x ∈ l, P x := by
  constructor
  · intro h x hx
    rcases List.getElem?_of_mem hx with ⟨k, hk⟩
    exact h k x hk
  · exact fun h k x hk => h x (List.mem_of_getElem? hk)

theorem forSteps_eq_ok_iff {is : InstructionSet} {P : Step → Prop}
    {check : Step → Int → Nat → Except MicrocodeError Unit}
    (hcheck : ∀ s opcode step, check s opcode step = .ok () ↔ P s) :
    forSteps is check = .ok () ↔
      (∀ s ∈ is.fetchPreamble, P s) ∧
        ∀ i ∈ is.instructions, ∀ v ∈ i.variants, ∀ s ∈ v.steps, P s := by
  rw [forSteps_eq_ok]
  simp only [hcheck, forall_getElem?]

theorem busValidator_eq_ok {is : InstructionSet} :
    busValidator is = .ok () ↔ (∀ s ∈ is.fetchPreamble, BusValid s) ∧
      ∀ i ∈ is.instructions, ∀ v ∈ i.variants, ∀ s ∈ v.steps, BusValid s :=
  forSteps_eq_ok_iff fun _ _ _ => busValidateStep_eq_ok

theorem controlConflictValidator_eq_ok {is : InstructionSet} :
    controlConflictValidator is = .ok () ↔ (∀ s ∈ is.fetchPreamble, ConflictFree s) ∧
      ∀ i ∈ is.instructions, ∀ v ∈ i.variants, ∀ s ∈ v.steps, ConflictFree s :=
  forSteps_eq_ok_iff fun _ _ _ => conflictValidateStep_eq_ok

theorem stageValidator_eq_ok {is : InstructionSet} :
    stageValidator is = .ok () ↔ StagesValid (is.fetchPreamble.map (·.stage)) ∧
      ∀ i ∈ is.instructions, ∀ v ∈ i.variants, StagesValid (v.steps.map (·.stage)) := by
  unfold stageValidator
  rw [seq_eq_ok, validateStages_eq_ok, forVariants_eq_ok]
  simp only [validateStages_eq_ok]

theorem sequenceValidator_eq_ok {incrementControl resetControl : Control} {is : InstructionSet} :
    sequenceValidator incrementControl resetControl is = .ok () ↔
      ∀ i ∈ is.instructions, ∀ v ∈ i.variants,
        EndsWith (fun s => incrementControl ∈ s.controls) (fun s => resetControl ∈ s.controls)
          v.steps := by
  unfold sequenceValidator
  rw [forVariants_eq_ok]
  refine forall₂_congr fun i _ => forall₂_congr fun v _ => ?_
  rw [forM_eq_ok, ← sequenceCheck_iff]
  simp only [throwIf_eq_ok, not_not]
  exact forall_mem_zipIdx v.steps fun s k =>
    sequenceControl incrementControl resetControl v.steps.length k ∈ s.controls

theorem runAllValidators_iff {c : Compiler} {is : InstructionSet} :
    c.runAllValidators is = .ok () ↔ c.Valid is := by
  unfold Compiler.runAllValidators statusValidator
  rw [seq_eq_ok, seq_eq_ok, seq_eq_ok, seq_eq_ok, seq_eq_ok, busValidator_eq_ok,
    controlConflictValidator_eq_ok, stageValidator_eq_ok, forM_eq_ok, sequenceValidator_eq_ok]
  constructor
  · rintro ⟨⟨hbp, hb⟩, ⟨hcp, hc⟩, ⟨hsp, hs⟩, hst, hcov, hseq⟩
    exact ⟨fun s h => ⟨hbp s h, hcp s h⟩, fun i hi v hv s h => ⟨hb i hi v hv s h, hc i hi v hv s h⟩,
      hsp, hs, hst, hcov, hseq⟩
  · intro h
    exact ⟨⟨fun s hs => (h.preamble s hs).1, fun i hi v hv s hs => (h.steps i hi v hv s hs).1⟩,
      ⟨fun s hs => (h.preamble s hs).2, fun i hi v hv s hs => (h.steps i hi v hv s hs).2⟩,
      ⟨h.preamble_stages, h.stages⟩, h.statuses, h.coverage, h.sequenced⟩

/-- The opcodes of the ISA in their order are covered, so the other validators decide. -/
theorem runAllValidators_of_opcodes {c : Compiler} {is : InstructionSet}
    (hopcodes : is.instructions.map (·.opcode) = Isa.instructions.map (·.opcode))
    (hbus : busValidator is = .ok ()) (hconflict : controlConflictValidator is = .ok ())
    (hstage : stageValidator is = .ok ()) (hstatus : statusValidator c.statusEncoder is = .ok ())
    (hsequence : sequenceValidator c.incrementControl c.resetControl is = .ok ()) :
    c.runAllValidators is = .ok () :=
  seq_eq_ok.mpr ⟨hbus, seq_eq_ok.mpr ⟨hconflict, seq_eq_ok.mpr ⟨hstage, seq_eq_ok.mpr ⟨hstatus,
    seq_eq_ok.mpr ⟨isaCoverageValidator_of_perm (hopcodes ▸ List.Perm.refl _), hsequence⟩⟩⟩⟩⟩

/-! ## Optimizers keep valid sets valid -/

namespace Compiler.Valid

variable {c : Compiler} {is : InstructionSet}

theorem statuses_optimize (h : c.Valid is) (f : List Step → List Step) :
    ∀ i ∈ (is.optimize f).instructions, statusValidateInstruction c.statusEncoder i = .ok () := by
  intro i hi
  rcases List.mem_map.mp hi with ⟨j, hj, rfl⟩
  rw [statusValidateInstruction_mapSteps]
  exact h.statuses j hj

theorem coverage_optimize (h : c.Valid is) (f : List Step → List Step) :
    isaCoverageValidator (is.optimize f) = .ok () :=
  (isaCoverageValidator_mapVariants is _).trans h.coverage

/-- A collapse within the stages keeps a set valid if it keeps steps valid and forgets no
control. -/
theorem optimize_collapse (h : c.Valid is) {f : Step → Step → Option Step}
    (hstage : ∀ a b d, f a b = some d → b.stage = a.stage ∧ d.stage = a.stage)
    (hvalid : ∀ a b d, f a b = some d → BusValid a ∧ ConflictFree a → BusValid b ∧ ConflictFree b →
      BusValid d ∧ ConflictFree d)
    (hmem : ∀ a b d, f a b = some d → ∀ e ∈ b.controls, e ∈ d.controls) :
    c.Valid (is.optimize (collapse f)) where
  preamble := forall_mem_collapse hvalid h.preamble
  steps := by
    intro i hi v hv
    rcases List.mem_map.mp hi with ⟨j, hj, rfl⟩
    rcases List.mem_map.mp hv with ⟨w, hw, rfl⟩
    exact forall_mem_collapse hvalid (h.steps j hj w hw)
  preamble_stages := stagesValid_collapse hstage h.preamble_stages
  stages := by
    intro i hi v hv
    rcases List.mem_map.mp hi with ⟨j, hj, rfl⟩
    rcases List.mem_map.mp hv with ⟨w, hw, rfl⟩
    exact stagesValid_collapse hstage (h.stages j hj w hw)
  statuses := h.statuses_optimize _
  coverage := h.coverage_optimize _
  sequenced := by
    intro i hi v hv
    rcases List.mem_map.mp hi with ⟨j, hj, rfl⟩
    rcases List.mem_map.mp hv with ⟨w, hw, rfl⟩
    exact endsWith_collapse (fun a b d hd hb => hmem a b d hd _ hb)
      (fun a b d hd hb => hmem a b d hd _ hb) (h.sequenced j hj w hw)

theorem optimize_removeDuplicateSteps (h : c.Valid is) :
    c.Valid (is.optimize removeDuplicateSteps) := by
  rw [funext removeDuplicateSteps_eq]
  refine h.optimize_collapse stage_fuseDuplicate (fun a b d hd ha _ => ?_) fun a b d hd e he => ?_
  · rw [(fuseDuplicate_eq_some hd).2]
    exact ha
  · rcases fuseDuplicate_eq_some hd with ⟨rfl, rfl⟩
    exact he

theorem optimize_mergeAdjacentSteps (h : c.Valid is) :
    c.Valid (is.optimize mergeAdjacentSteps) := by
  rw [funext mergeAdjacentSteps_eq]
  refine h.optimize_collapse stage_fuseMergeable (fun a b d hd ha hb => ?_) fun a b d hd e he => ?_
  · rcases fuseMergeable_eq_some hd with ⟨hcan, rfl⟩
    exact ⟨busValid_mergeSteps ha.1 hb.1 hcan, conflictFree_mergeSteps ha.2 hb.2 hb.1 hcan⟩
  · rw [(fuseMergeable_eq_some hd).2]
    exact mem_mergeSteps.mpr (.inr he)

/-- A sequenced variant has no empty step. -/
theorem removeEmptySteps_eq_self (h : c.Valid is) {i : Instruction} (hi : i ∈ is.instructions)
    {v : InstructionVariant} (hv : v ∈ i.variants) : removeEmptySteps v.steps = v.steps := by
  refine List.filter_eq_self.mpr fun s hs => ?_
  rcases List.getElem?_of_mem hs with ⟨k, hk⟩
  have hmem := sequenceCheck_iff.mpr (h.sequenced i hi v hv) k s hk
  rw [Bool.not_eq_true', List.isEmpty_eq_false_iff]
  exact List.ne_nil_of_mem hmem

/-- The removal of empty steps can only break the stages of the preamble. -/
theorem optimize_removeEmptySteps (h : c.Valid is)
    (hpre : StagesValid ((removeEmptySteps is.fetchPreamble).map (·.stage))) :
    c.Valid (is.optimize removeEmptySteps) := by
  rw [optimize_eq fun i hi v hv => h.removeEmptySteps_eq_self hi hv]
  exact ⟨fun s hs => h.preamble s (List.mem_of_mem_filter hs), h.steps, hpre, h.stages, h.statuses,
    h.coverage, h.sequenced⟩

end Compiler.Valid

end Irata2.Microcode
