import Irata2.Library.Runs
import Irata2.Microcode.Pipeline
import Irata2.Microcode.Program

/-!
# Empty steps

A step without controls gets the control that sequences it before the optimizer for empty steps
runs, so that optimizer removes no step of an instruction.  After the sequencing only steps that
equal their neighbours are fused, and an empty step is left out only beside such a neighbour.
-/

namespace Irata2.Microcode

open Hdl Library

/-! ## Sequenced steps under the optimizers -/

theorem dedupSteps_eq_destutter' (last : Step) (steps : List Step) :
    dedupSteps last steps = steps.destutter' (· ≠ ·) last := by
  induction steps generalizing last with
  | nil => rfl
  | cons s rest ih =>
      unfold dedupSteps
      by_cases h : s = last
      · rw [if_pos h, ih, List.destutter'_cons_neg _ (not_not.mpr h.symm)]
      · rw [if_neg h, ih, List.destutter'_cons_pos _ (fun heq => h heq.symm)]

theorem removeDuplicateSteps_eq_runs (steps : List Step) : removeDuplicateSteps steps = runs steps := by
  cases steps with
  | nil => rfl
  | cons s rest => exact dedupSteps_eq_destutter' s rest

theorem mem_withControl (control : Control) (s : Step) :
    control ∈ (s.withControl control).controls := by
  unfold Step.withControl
  by_cases h : control ∈ s.controls
  · rw [if_pos h]
    exact h
  · rw [if_neg h]
    exact List.mem_append_right _ List.mem_cons_self

theorem controls_withControl_of_nil (control : Control) {s : Step} (h : s.controls = []) :
    s.withControl control = ⟨s.stage, [control]⟩ := by
  unfold Step.withControl
  rw [if_neg (by rw [h]; exact List.not_mem_nil), h]
  rfl

/-- A sequenced step is neither empty nor merged with another one. -/
theorem optimizeSteps_sequenceSteps (l : List Step) :
    optimizeSteps (sequenceSteps .scIncrement .scReset l) =
      runs (sequenceSteps .scIncrement .scReset l) := by
  have hprocess : ∀ s ∈ sequenceSteps .scIncrement .scReset l,
      ∃ c ∈ s.controls, c.phase = .process := by
    intro s hs
    rcases List.mem_map.mp hs with ⟨⟨t, i⟩, -, rfl⟩
    refine ⟨_, mem_withControl (sequenceControl .scIncrement .scReset l.length i) t, ?_⟩
    unfold sequenceControl
    split <;> rfl
  have hempty : removeEmptySteps (sequenceSteps .scIncrement .scReset l) =
      sequenceSteps .scIncrement .scReset l := by
    refine List.filter_eq_self.mpr fun s hs => ?_
    rcases hprocess s hs with ⟨c, hc, -⟩
    rw [Bool.not_eq_true', List.isEmpty_eq_false_iff]
    exact List.ne_nil_of_mem hc
  unfold optimizeSteps
  rw [hempty, removeDuplicateSteps_eq_runs]
  exact mergeAdjacentSteps_eq_self fun s hs => hprocess s (mem_runs.mp hs)

/-! ## What the removal of empty steps changes -/

/-- A step that asserts nothing but the increment of the counter once it is sequenced. -/
def Step.Idles (s : Step) : Prop := s.controls = [] ∨ s.controls = [.scIncrement]

/-- Where the empty steps of a variant take no tick of their own.  An empty step that is not the
last has an idle step of its stage beside it: the last step kept before it, or the one behind it
that is not the last either.  An empty step at the end is made up for by the step that becomes the
last: that step asserts nothing but the reset, and the one before it the same. -/
structure Costless (preamble own : List Step) : Prop where
  inner : ∀ before e behind, own.dropLast = before ++ e :: behind → e.controls = [] →
    (∃ a, (preamble ++ removeEmptySteps before).getLast? = some a ∧ a.stage = e.stage ∧ a.Idles) ∨
      ∃ b, behind.head? = some b ∧ b.stage = e.stage ∧ b.Idles
  last : ∀ e, own.getLast? = some e → e.controls = [] →
    ∃ k y x, preamble ++ removeEmptySteps own.dropLast = k ++ [y, x] ∧
      (∀ c ∈ x.controls, c = .scReset) ∧ y.stage = x.stage ∧
      (y.controls = x.controls ∨ y.controls = x.controls ++ [.scIncrement])

theorem withControl_eq_iff {a e : Step} (he : e.controls = []) :
    a.withControl .scIncrement = e.withControl .scIncrement ↔ a.stage = e.stage ∧ a.Idles := by
  rw [controls_withControl_of_nil _ he]
  unfold Step.withControl Step.Idles
  rcases a with ⟨stage, controls⟩
  by_cases h : Control.scIncrement ∈ controls
  · rw [if_pos h, Step.mk.injEq]
    refine and_congr_right fun _ => (or_iff_right ?_).symm
    intro hnil
    change controls = [] at hnil
    rw [hnil] at h
    exact List.not_mem_nil h
  · rw [if_neg h, Step.mk.injEq]
    refine and_congr_right fun _ => ?_
    show controls ++ [Control.scIncrement] = [Control.scIncrement] ↔ _
    rw [List.append_left_eq_self, or_iff_left]
    intro hone
    change controls = [Control.scIncrement] at hone
    rw [hone] at h
    exact h List.mem_cons_self

/-- The steps that are kept, and what the sequencing makes of them. -/
abbrev keeps (s : Step) : Bool := !s.controls.isEmpty

theorem keeps_eq_false {s : Step} : keeps s = false ↔ s.controls = [] := by
  rw [keeps, Bool.not_eq_false', List.isEmpty_iff]

abbrev incremented (s : Step) : Step := s.withControl .scIncrement

/-- The condition on the empty steps before the last one says that each of them is absorbed. -/
theorem absorbed_iff {preamble own : List Step} {b : Step} :
    Absorbed incremented keeps preamble own [b.withControl .scReset] ↔
      ∀ before e behind, own = before ++ e :: behind → e.controls = [] →
        (∃ a, (preamble ++ removeEmptySteps before).getLast? = some a ∧ a.stage = e.stage ∧
          a.Idles) ∨ ∃ b, behind.head? = some b ∧ b.stage = e.stage ∧ b.Idles := by
  unfold Absorbed
  refine forall₃_congr fun before e behind => imp_congr_right fun _ => ?_
  rw [keeps_eq_false]
  refine imp_congr_right fun he => or_congr ?_ ?_
  · rw [Option.map_eq_some_iff]
    exact exists_congr fun a => and_congr_right fun _ => withControl_eq_iff he
  · cases behind with
    | nil =>
        -- the last step asserts the reset
        apply iff_of_false
        · intro h
          have heq : b.withControl .scReset = incremented e := Option.some.inj h
          have hmem := mem_withControl .scReset b
          rw [heq, incremented, controls_withControl_of_nil _ he] at hmem
          rw [List.mem_singleton] at hmem
          cases hmem
        · rintro ⟨b, hb, -⟩
          cases hb
    | cons d behind =>
        rw [List.map_cons, List.cons_append, List.head?_cons, List.head?_cons, Option.some_inj,
          withControl_eq_iff he]
        constructor
        · exact fun h => ⟨d, rfl, h⟩
        · rintro ⟨b, hb, h⟩
          cases hb
          exact h

/-- A step before the last one and the step that takes its place at the end. -/
def EndsAlike (kept : List Step) : Prop :=
  ∃ k y x, kept = k ++ [y, x] ∧ (∀ c ∈ x.controls, c = .scReset) ∧ y.stage = x.stage ∧
    (y.controls = x.controls ∨ y.controls = x.controls ++ [.scIncrement])

theorem costless_concat_iff {preamble own : List Step} {b : Step} :
    Costless preamble (own ++ [b]) ↔
      Absorbed incremented keeps preamble own [b.withControl .scReset] ∧
        (b.controls = [] → EndsAlike (preamble ++ removeEmptySteps own)) := by
  rw [absorbed_iff]
  constructor
  · intro h
    have hinner := h.inner
    have hlast := h.last b List.getLast?_concat
    rw [List.dropLast_concat] at hinner hlast
    exact ⟨hinner, hlast⟩
  · rintro ⟨hinner, hlast⟩
    constructor
    · rw [List.dropLast_concat]
      exact hinner
    · intro e he hnil
      rw [List.getLast?_concat] at he
      cases he
      rw [List.dropLast_concat]
      exact hlast hnil

/-! ## Control words -/

theorem encodeControls_eq_iff {l m : List Control} :
    encodeControls l = encodeControls m ↔ ∀ c, c ∈ l ↔ c ∈ m := by
  constructor
  · intro h c
    rw [← getLsbD_encodeControls_control, h, getLsbD_encodeControls_control]
  · intro h
    apply BitVec.eq_of_getLsbD_eq
    intro i _
    rw [Bool.eq_iff_iff, getLsbD_encodeControls, getLsbD_encodeControls]
    simp only [h]

theorem encodeControls_reset_iff {x : Step} :
    encodeControls (x.withControl .scReset).controls = encodeControls [.scReset] ↔
      ∀ c ∈ x.controls, c = .scReset := by
  have hmem : ∀ c, c ∈ (x.withControl .scReset).controls ↔ c ∈ x.controls ∨ c = .scReset := by
    intro c
    unfold Step.withControl
    by_cases h : Control.scReset ∈ x.controls
    · rw [if_pos h]
      exact (or_iff_left_of_imp fun hc => hc ▸ h).symm
    · rw [if_neg h, List.mem_append, List.mem_singleton]
  rw [encodeControls_eq_iff]
  simp only [hmem, List.mem_singleton, or_iff_right_iff_imp]

/-- The control words of the sequenced steps that the optimizers leave. -/
def stepWords (l : List Step) : List ControlWord :=
  (runs (sequenceSteps .scIncrement .scReset l)).map fun s => encodeControls s.controls

theorem stepWords_concat (l : List Step) (s : Step) :
    stepWords (l ++ [s]) =
      (runs (l.map incremented ++ [s.withControl .scReset])).map fun s =>
        encodeControls s.controls := by
  unfold stepWords
  rw [sequenceSteps_concat]

/-- A step that asserts nothing but the reset differs from every step that is incremented. -/
theorem getLast?_incremented_ne {l : List Step} {x : Step}
    (hx : ∀ c ∈ x.controls, c = .scReset) :
    (l.map incremented).getLast? ≠ some (x.withControl .scReset) := by
  intro h
  rcases List.mem_map.mp (List.mem_of_getLast? h) with ⟨s, -, hs⟩
  have hmem := mem_withControl .scIncrement s
  rw [← incremented, hs] at hmem
  have hword := encodeControls_eq_iff.mp (encodeControls_reset_iff.mpr hx) .scIncrement
  have hreset := hword.mp hmem
  rw [List.mem_singleton] at hreset
  cases hreset

theorem length_stepWords_concat {l : List Step} {x : Step} (hx : ∀ c ∈ x.controls, c = .scReset) :
    (stepWords (l ++ [x])).length = (runs (l.map incremented)).length + 1 := by
  rw [stepWords_concat, List.length_map, runs_concat (getLast?_incremented_ne hx),
    List.length_append]
  rfl

/-- The last word of a list of steps that ends by the reset alone. -/
theorem stepWords_concat_reset {l : List Step} {x : Step} (hx : ∀ c ∈ x.controls, c = .scReset) :
    stepWords (l ++ [x]) =
      (runs (l.map incremented)).map (fun s => encodeControls s.controls) ++
        [encodeControls [.scReset]] := by
  rw [stepWords_concat, runs_concat (getLast?_incremented_ne hx), List.map_append, List.map_cons,
    encodeControls_reset_iff.mpr hx]
  rfl

theorem getLast?_stepWords_concat (l : List Step) (x : Step) :
    (stepWords (l ++ [x])).getLast? = some (encodeControls (x.withControl .scReset).controls) := by
  rw [stepWords_concat, List.getLast?_map, getLast?_runs, List.getLast?_concat]
  rfl

/-! ### One variant -/

section Variant

variable {preamble own : List Step} {b : Step}

theorem removeEmptySteps_concat_keep (hb : b.controls ≠ []) :
    removeEmptySteps (own ++ [b]) = own.filter keeps ++ [b] := by
  have hkeep : keeps b = true := by
    rw [keeps, Bool.not_eq_true', List.isEmpty_eq_false_iff]
    exact hb
  unfold removeEmptySteps
  rw [List.filter_append, List.filter_cons, if_pos hkeep]
  rfl

theorem removeEmptySteps_concat_drop (hb : b.controls = []) :
    removeEmptySteps (own ++ [b]) = own.filter keeps := by
  unfold removeEmptySteps
  rw [List.filter_append, List.filter_cons, if_neg (by rw [hb]; decide), List.filter_nil,
    List.append_nil]

/-- With a last step that stays, what is left is the list with its absorbed items dropped. -/
theorem stepWords_concat_keep_iff (hb : b.controls ≠ []) :
    stepWords (preamble ++ removeEmptySteps (own ++ [b])) = stepWords (preamble ++ (own ++ [b])) ↔
      Costless preamble (own ++ [b]) := by
  rw [costless_concat_iff, and_iff_left fun hnil => absurd hnil hb,
    removeEmptySteps_concat_keep hb, ← List.append_assoc,
    ← List.append_assoc, stepWords_concat, stepWords_concat]
  constructor
  · intro h
    have hlen := congrArg List.length h
    rw [List.length_map, List.length_map] at hlen
    exact absorbed_of_length_runs hlen
  · intro h
    rw [runs_filter_of_absorbed h]

/-- The step that becomes the last one makes up for an empty step at the end. -/
theorem endsAlike_iff {k : List Step} {x : Step} (hx : ∀ c ∈ x.controls, c = .scReset) :
    EndsAlike (k ++ [x]) ↔ (k.map incremented).getLast? = some (incremented x) := by
  have hno : Control.scIncrement ∉ x.controls := by
    intro hmem
    have heq := hx _ hmem
    cases heq
  have hincremented : incremented x = ⟨x.stage, x.controls ++ [.scIncrement]⟩ := by
    rw [incremented, Step.withControl, if_neg hno]
  have hstep : ∀ y : Step, incremented y = incremented x ↔ y.stage = x.stage ∧
      (y.controls = x.controls ∨ y.controls = x.controls ++ [.scIncrement]) := by
    intro y
    rw [hincremented, incremented, Step.withControl]
    rcases y with ⟨stage, controls⟩
    by_cases h : Control.scIncrement ∈ controls
    · rw [if_pos h, Step.mk.injEq]
      refine and_congr_right fun _ => (or_iff_right ?_).symm
      intro heq
      exact hno (heq ▸ h)
    · rw [if_neg h, Step.mk.injEq]
      refine and_congr_right fun _ => ?_
      show controls ++ [Control.scIncrement] = _ ↔ _
      rw [List.append_cancel_right_eq, or_iff_left]
      intro heq
      change controls = _ at heq
      rw [heq] at h
      exact h (List.mem_append_right _ List.mem_cons_self)
  rw [List.getLast?_map, Option.map_eq_some_iff]
  constructor
  · rintro ⟨k', y, x', heq, -, hstage, hcontrols⟩
    rw [List.append_cons k' y, ← List.concat_eq_append, ← List.concat_eq_append] at heq
    obtain ⟨rfl, rfl⟩ := List.concat_inj.mp heq
    exact ⟨y, List.getLast?_concat, (hstep y).mpr ⟨hstage, hcontrols⟩⟩
  · rintro ⟨y, hy, heq⟩
    obtain ⟨k', rfl⟩ := List.getLast?_eq_some_iff.mp hy
    have hboth := (hstep y).mp heq
    exact ⟨k', y, x, List.append_assoc k' [y] [x], hx, hboth.1, hboth.2⟩

/-- With an empty step at the end, the last step that stays is reset in its place. -/
theorem stepWords_concat_drop_iff (hb : b.controls = [])
    (hne : preamble ++ removeEmptySteps own ≠ []) :
    stepWords (preamble ++ removeEmptySteps (own ++ [b])) = stepWords (preamble ++ (own ++ [b])) ↔
      Costless preamble (own ++ [b]) := by
  have hbx : ∀ c ∈ b.controls, c = .scReset := by
    rw [hb]
    exact List.forall_mem_nil _
  obtain ⟨k, x, hkx⟩ := List.eq_nil_or_concat' (preamble ++ own.filter keeps) |>.resolve_left hne
  have hlast : preamble ++ removeEmptySteps own = k ++ [x] := hkx
  rw [costless_concat_iff, removeEmptySteps_concat_drop hb, hlast, hkx, ← List.append_assoc, forall_prop_of_true hb]
  constructor
  · intro h
    have hword := congrArg List.getLast? h
    rw [getLast?_stepWords_concat, getLast?_stepWords_concat, Option.some_inj,
      encodeControls_reset_iff.mpr hbx, encodeControls_reset_iff] at hword
    have hlen := congrArg List.length h
    rw [length_stepWords_concat hword, length_stepWords_concat hbx] at hlen
    -- the runs of the steps before the end are as many with and without the empty steps
    have hfilter := @length_runs_filter_le _ _ incremented keeps _ preamble own []
    rw [List.append_nil, List.append_nil, hkx] at hfilter
    have hinsert := length_runs_insert_le (k.map incremented) [] (incremented x)
    rw [List.append_nil] at hinsert
    rw [List.map_append] at hfilter
    change (runs (k.map incremented ++ [incremented x])).length ≤ _ at hfilter
    refine ⟨absorbed_of_length_runs ?_, (endsAlike_iff hword).mpr ?_⟩
    · rw [runs_concat (getLast?_incremented_ne hbx), runs_concat (getLast?_incremented_ne hbx),
        List.length_append, List.length_append, hkx, List.map_append]
      change (runs (k.map incremented ++ [incremented x])).length + _ = _
      omega
    · by_contra hnot
      have hlt := length_runs_insert_lt (r := []) hnot (fun hnil => by cases hnil)
      rw [List.append_nil] at hlt
      omega
  · rintro ⟨habsorbed, hends⟩
    have hx : ∀ c ∈ x.controls, c = .scReset := by
      obtain ⟨k', y, x', heq, hx, -, -⟩ := hends
      rw [List.append_cons k' y, ← List.concat_eq_append, ← List.concat_eq_append] at heq
      obtain ⟨-, rfl⟩ := List.concat_inj.mp heq
      exact hx
    have hruns := runs_filter_of_absorbed habsorbed
    rw [runs_concat (getLast?_incremented_ne hbx), runs_concat (getLast?_incremented_ne hbx),
      List.append_cancel_right_eq, hkx, List.map_append] at hruns
    have hinsert := runs_insert_eq (r := []) (.inl ((endsAlike_iff hx).mp hends))
    rw [List.append_nil] at hinsert
    rw [stepWords_concat_reset hx, stepWords_concat_reset hbx, ← hruns, ← hinsert]
    rfl

/-! ### Valid steps -/

theorem consecutive_of_append {expected : Int} {l m : List Int} (h : Consecutive expected (l ++ m)) :
    Consecutive expected l := by
  induction l generalizing expected with
  | nil => trivial
  | cons stage rest ih => exact ⟨h.1, ih h.2⟩

/-- What the validators check of the sequenced steps of a variant. -/
def StepsValid (l : List Step) : Prop :=
  (∀ s ∈ sequenceSteps .scIncrement .scReset l, BusValid s ∧ ConflictFree s) ∧
    StagesValid (l.map (·.stage))

theorem valid_of_resets {s : Step} (h : ∀ c ∈ s.controls, c = .scReset) :
    BusValid s ∧ ConflictFree s := by
  have hwriters : ∀ bus, busWriters bus s = [] := by
    intro bus
    refine List.filter_eq_nil_iff.mpr fun c hc => ?_
    rw [h c hc]
    cases bus <;> decide
  have hreaders : ∀ bus, busReaders bus s = [] := by
    intro bus
    refine List.filter_eq_nil_iff.mpr fun c hc => ?_
    rw [h c hc]
    cases bus <;> decide
  have hoperation : ∀ o op, hasOperation s o op = true → op = .reset := by
    intro o op hop
    rcases hasOperation_eq_true.mp hop with ⟨c, hc, heq, -⟩
    rw [h c hc] at heq
    exact (Option.some.inj heq).symm
  constructor
  · intro bus
    rw [hwriters, hreaders]
    exact ⟨Nat.zero_le 1, fun hne => hne⟩
  · intro o
    refine ⟨fun hop => ?_, fun hop => ?_, fun hop => ?_⟩
    · exact absurd (hoperation o _ hop.1) (by decide)
    · exact absurd (hoperation o _ hop.1) (by decide)
    · exact absurd (hoperation o _ hop.1) (by decide)

theorem stagesValid_of_runs {l m : List Step}
    (hsub : (m.map (·.stage)).Sublist (l.map (·.stage))) (hruns : runs m = runs l)
    (h : StagesValid (l.map (·.stage))) : StagesValid (m.map (·.stage)) := by
  refine stagesValid_of_collapse hsub (fun k => ?_) ?_ h
  · have hmem : ∀ s, s ∈ m ↔ s ∈ l := by
      intro s
      rw [← mem_runs, hruns, mem_runs]
    simp only [List.mem_map, hmem]
  · rw [List.head?_map, List.head?_map, ← head?_runs, hruns, head?_runs]

/-- Valid stages stay valid without the last one. -/
theorem stagesValid_of_concat {l : List Int} {k : Int} (h : StagesValid (l ++ [k])) :
    StagesValid l := by
  -- the sorted list of stages loses its last one or nothing
  rcases List.eq_nil_or_concat' l with rfl | ⟨l', j, rfl⟩
  · exact .inl rfl
  · rcases h with hnil | ⟨hhead, hchain, hgaps⟩
    · exact absurd hnil (List.append_ne_nil_of_right_ne_nil _ (List.cons_ne_nil k []))
    · generalize hl : l' ++ [j] = l at *
      have hne : l ≠ [] := by
        rw [← hl]
        exact List.append_ne_nil_of_right_ne_nil _ (List.cons_ne_nil j [])
      have hhead' : l.head? = some 0 := by
        rw [← hhead, List.head?_append_of_ne_nil _ hne]
      have hmono := List.isChain_iff_pairwise.mp hchain
      rw [List.pairwise_cons, List.pairwise_append] at hmono
      refine .inr ⟨hhead', ?_, ?_⟩
      · rw [List.isChain_iff_pairwise, List.pairwise_cons]
        exact ⟨fun a ha => hmono.1 a (List.mem_append_left _ ha), hmono.2.1⟩
      · by_cases hk : k ∈ l
        · -- the stage stands elsewhere, so the set of stages is the same
          have hvalid : StagesValid l := stagesValid_of_collapse (List.sublist_append_left l [k])
            (fun i => by
              rw [List.mem_append, List.mem_singleton]
              exact (or_iff_left_of_imp fun hi => hi ▸ hk).symm)
            (hhead'.trans hhead.symm) (.inr ⟨hhead, hchain, hgaps⟩)
          rcases hvalid with hnil | hvalid
          · exact absurd hnil hne
          · exact hvalid.2.2
        · -- the stage is above all others, so it is the last of the sorted ones
          have hsorted : (l ++ [k]).dedup.insertionSort (· ≤ ·) =
              l.dedup.insertionSort (· ≤ ·) ++ [k] := by
            have hmem : ∀ x, x ∈ l.dedup.insertionSort (· ≤ ·) ↔ x ∈ l := by
              intro x
              rw [(List.perm_insertionSort _ _).mem_iff, List.mem_dedup]
            apply insertionSort_dedup_eq
            · rw [List.pairwise_append]
              refine ⟨?_, List.pairwise_singleton _ k, fun a ha b hb => ?_⟩
              · have hle := List.pairwise_insertionSort (· ≤ ·) l.dedup
                have hnodup := (List.perm_insertionSort (· ≤ ·) l.dedup).nodup_iff.mpr
                  l.nodup_dedup
                exact (hle.and hnodup).imp fun hab => lt_of_le_of_ne hab.1 hab.2
              · rw [List.mem_singleton] at hb
                rw [hmem] at ha
                rw [hb]
                refine lt_of_le_of_ne (hmono.2.2.2 a ha k List.mem_cons_self) ?_
                intro heq
                exact hk (heq ▸ ha)
            · intro x
              rw [List.mem_append, List.mem_append, hmem]
          rw [hsorted] at hgaps
          exact consecutive_of_append hgaps

theorem map_stage_incremented (l : List Step) :
    (l.map incremented).map (·.stage) = l.map (·.stage) := by
  rw [List.map_map]
  exact List.map_congr_left fun s _ => stage_withControl _ s

theorem sublist_kept (preamble own : List Step) :
    (preamble ++ own.filter keeps).Sublist (preamble ++ own) :=
  List.Sublist.append (List.Sublist.refl preamble) List.filter_sublist

theorem stepsValid_concat_keep (hb : b.controls ≠ []) (hcost : Costless preamble (own ++ [b]))
    (h : StepsValid (preamble ++ (own ++ [b]))) :
    StepsValid (preamble ++ removeEmptySteps (own ++ [b])) := by
  have hstages : ∀ l : List Step, (l.map incremented ++ [b.withControl .scReset]).map (·.stage) =
      (l ++ [b]).map (·.stage) := by
    intro l
    rw [List.map_append, List.map_append, map_stage_incremented, List.map_cons, List.map_cons,
      stage_withControl]
  rw [← List.append_assoc] at h
  rw [removeEmptySteps_concat_keep hb, ← List.append_assoc]
  have hsub := sublist_kept preamble own
  refine ⟨fun s hs => h.1 s ?_, ?_⟩
  · rw [sequenceSteps_concat] at hs ⊢
    exact ((hsub.map _).append (List.Sublist.refl _)).subset hs
  · rw [← hstages]
    refine stagesValid_of_runs ?_ (runs_filter_of_absorbed (costless_concat_iff.mp hcost).1) ?_
    · rw [hstages, hstages]
      exact (hsub.append (List.Sublist.refl _)).map _
    · rw [hstages]
      exact h.2

theorem stepsValid_concat_drop (hb : b.controls = []) (hcost : Costless preamble (own ++ [b]))
    (h : StepsValid (preamble ++ (own ++ [b]))) :
    StepsValid (preamble ++ removeEmptySteps (own ++ [b])) := by
  have hbx : ∀ c ∈ b.controls, c = .scReset := by
    rw [hb]
    exact List.forall_mem_nil _
  obtain ⟨habsorbed, hends⟩ := costless_concat_iff.mp hcost
  obtain ⟨k, y, x, hkx, hx, -, -⟩ := hends hb
  have hlast : preamble ++ own.filter keeps = (k ++ [y]) ++ [x] := by
    rw [← List.append_cons k y [x]]
    exact hkx
  rw [← List.append_assoc] at h
  rw [removeEmptySteps_concat_drop hb]
  constructor
  · intro s hs
    rw [hlast, sequenceSteps_concat, List.mem_append, List.mem_singleton] at hs
    rcases hs with hs | rfl
    · -- the steps before the new last one are sequenced as they were
      rcases List.mem_map.mp hs with ⟨t, ht, rfl⟩
      have htmem : t ∈ preamble ++ own.filter keeps := by
        rw [hlast]
        exact List.mem_append_left _ ht
      have htown : t ∈ preamble ++ own := (sublist_kept preamble own).subset htmem
      apply h.1
      rw [sequenceSteps_concat]
      exact List.mem_append_left _ (List.mem_map_of_mem htown)
    · exact valid_of_resets fun c hc => List.mem_singleton.mp
        ((encodeControls_eq_iff.mp (encodeControls_reset_iff.mpr hx) c).mp hc)
  · have hprefix : StagesValid ((preamble ++ own).map (·.stage)) := by
      have hstages := h.2
      rw [List.map_append] at hstages
      exact stagesValid_of_concat hstages
    have hruns := runs_filter_of_absorbed habsorbed
    rw [runs_concat (getLast?_incremented_ne hbx), runs_concat (getLast?_incremented_ne hbx),
      List.append_cancel_right_eq] at hruns
    rw [← map_stage_incremented] at hprefix ⊢
    refine stagesValid_of_runs ?_ hruns hprefix
    rw [map_stage_incremented, map_stage_incremented]
    exact (sublist_kept preamble own).map _

end Variant

/-! ## Instruction sets -/

/-- The steps of a variant behind the fetch, at the stages that they get there. -/
def behindFetch (preamble steps : List Step) : List Step :=
  if preamble.isEmpty then steps else steps.map fun s => { s with stage := s.stage + 1 }

theorem prefixSteps_eq (preamble steps : List Step) :
    prefixSteps preamble steps = preamble ++ behindFetch preamble steps := by
  unfold prefixSteps behindFetch
  by_cases h : preamble.isEmpty = true
  · rw [if_pos h, if_pos h, List.isEmpty_iff.mp h]
    rfl
  · rw [if_neg h, if_neg h]

theorem removeEmptySteps_behindFetch (preamble steps : List Step) :
    removeEmptySteps (behindFetch preamble steps) =
      behindFetch preamble (removeEmptySteps steps) := by
  unfold behindFetch
  by_cases h : preamble.isEmpty = true
  · rw [if_pos h, if_pos h]
  · rw [if_neg h, if_neg h]
    unfold removeEmptySteps
    rw [List.filter_map]
    rfl

/-- The steps of a variant without the empty ones, where a step is left. -/
def stripSteps (preamble steps : List Step) : List Step :=
  if preamble = [] ∧ removeEmptySteps steps = [] then steps else removeEmptySteps steps

/-- The source without the empty steps of its instructions. -/
def InstructionSet.withoutEmptySteps (is : InstructionSet) : InstructionSet :=
  is.mapVariants (·.mapSteps (stripSteps is.fetchPreamble))

/-- The empty steps of a variant take no tick, where a step is left without them. -/
def InstructionVariant.Costless (preamble : List Step) (v : InstructionVariant) : Prop :=
  preamble ≠ [] ∨ removeEmptySteps v.steps ≠ [] →
    Microcode.Costless preamble (behindFetch preamble v.steps)

theorem costless_nil (preamble : List Step) : Costless preamble [] := by
  constructor
  · intro before e behind h
    cases before <;> cases h
  · intro e h
    cases h

/-- Without the empty steps a variant keeps its words exactly when they cost nothing. -/
theorem stepWords_strip_iff (preamble : List Step) (v : InstructionVariant) :
    stepWords (prefixSteps preamble (stripSteps preamble v.steps)) =
        stepWords (prefixSteps preamble v.steps) ↔ v.Costless preamble := by
  unfold stripSteps InstructionVariant.Costless
  by_cases hleft : preamble = [] ∧ removeEmptySteps v.steps = []
  · rw [if_pos hleft]
    refine iff_of_true rfl fun h => ?_
    rcases h with h | h
    · exact absurd hleft.1 h
    · exact absurd hleft.2 h
  · have hsome : preamble ≠ [] ∨ removeEmptySteps v.steps ≠ [] := not_and_or.mp hleft
    rw [if_neg hleft, forall_prop_of_true hsome, prefixSteps_eq, prefixSteps_eq,
      ← removeEmptySteps_behindFetch]
    have hne : preamble ≠ [] ∨ removeEmptySteps (behindFetch preamble v.steps) ≠ [] := by
      refine hsome.imp_right fun h hnil => h ?_
      rw [removeEmptySteps_behindFetch] at hnil
      unfold behindFetch at hnil
      split at hnil
      · exact hnil
      · exact List.map_eq_nil_iff.mp hnil
    rcases List.eq_nil_or_concat' (behindFetch preamble v.steps) with hown | ⟨own, b, hown⟩
    · rw [hown]
      exact iff_of_true rfl (costless_nil preamble)
    · rw [hown] at hne ⊢
      by_cases hb : b.controls = []
      · refine stepWords_concat_drop_iff hb fun hnil => ?_
        rw [List.append_eq_nil_iff] at hnil
        rcases hne with hne | hne
        · exact hne hnil.1
        · apply hne
          unfold removeEmptySteps at hnil ⊢
          rw [List.filter_append, hnil.2, List.filter_cons, if_neg (by rw [hb]; decide)]
          rfl
      · exact stepWords_concat_keep_iff hb

theorem stepsValid_strip {preamble : List Step} {v : InstructionVariant}
    (hcost : v.Costless preamble) (h : StepsValid (prefixSteps preamble v.steps)) :
    StepsValid (prefixSteps preamble (stripSteps preamble v.steps)) := by
  unfold stripSteps
  by_cases hleft : preamble = [] ∧ removeEmptySteps v.steps = []
  · rw [if_pos hleft]
    exact h
  · have hown := hcost (not_and_or.mp hleft)
    rw [if_neg hleft, prefixSteps_eq, ← removeEmptySteps_behindFetch]
    rw [prefixSteps_eq] at h
    rcases List.eq_nil_or_concat' (behindFetch preamble v.steps) with hnil | ⟨own, b, hconcat⟩
    · rw [hnil] at h ⊢
      exact h
    · rw [hconcat] at h hown ⊢
      by_cases hb : b.controls = []
      · exact stepsValid_concat_drop hb hown h
      · exact stepsValid_concat_keep hb hown h

/-- Sequenced steps end as the sequence validator asks. -/
theorem endsWith_sequenceSteps (incrementControl resetControl : Control) (l : List Step) :
    EndsWith (fun s => incrementControl ∈ s.controls) (fun s => resetControl ∈ s.controls)
      (sequenceSteps incrementControl resetControl l) := by
  rw [← sequenceCheck_iff]
  intro k s hs
  unfold sequenceSteps at hs ⊢
  rw [List.getElem?_map, Option.map_eq_some_iff] at hs
  rcases hs with ⟨⟨t, j⟩, ht, rfl⟩
  rw [List.getElem?_zipIdx, Option.map_eq_some_iff] at ht
  rcases ht with ⟨u, -, heq⟩
  cases heq
  rw [List.length_map, List.length_zipIdx, Nat.zero_add]
  exact mem_withControl _ _

namespace Compiler

variable {c : Compiler} {is : InstructionSet} {p : MicrocodeProgram}

/-- The control words of a variant in the ROM. -/
def words (c : Compiler) (preamble steps : List Step) : List ControlWord :=
  (c.optimizedSteps preamble steps).map fun s => encodeControls s.controls

theorem words_eq (hinc : c.incrementControl = .scIncrement) (hreset : c.resetControl = .scReset)
    (preamble steps : List Step) :
    c.words preamble steps = stepWords (prefixSteps preamble steps) := by
  unfold words optimizedSteps preparedSteps stepWords
  rw [hinc, hreset, optimizeSteps_sequenceSteps]

theorem length_words_le (h : c.compile is = .ok p) {i : Instruction} (hi : i ∈ is.instructions)
    {v : InstructionVariant} (hv : v ∈ i.variants) :
    (c.words is.fetchPreamble v.steps).length ≤ 256 := by
  rcases bind_eq_ok.mp h with ⟨ir, hir, henc⟩
  rcases (of_optimizedIr hir).2.2 with ⟨-, rfl⟩
  have hlen := ((encode_eq_ok.mp henc).1 _ (mem_optimized hi) _ (List.mem_map_of_mem hv)).steps
  unfold words
  rw [List.length_map]
  exact hlen

/-- The table of a compiled set under the keys of a variant. -/
theorem lookup_eq_words (h : c.compile is = .ok p) {i : Instruction} (hi : i ∈ is.instructions)
    {v : InstructionVariant} (hv : v ∈ i.variants) {status : Byte}
    (hstatus : status ∈ c.statusEncoder.statusesOf v) {k : Nat} (hk : k < 256) :
    p.table.lookup (encodeKey ⟨i.opcode, BitVec.ofNat 8 k, status⟩) =
      (c.words is.fetchPreamble v.steps)[k]? := by
  rcases bind_eq_ok.mp h with ⟨ir, hir, henc⟩
  rcases of_optimizedIr hir with ⟨-, -, hvalid, rfl⟩
  unfold words
  rw [List.getElem?_map]
  cases hs : (c.optimizedSteps is.fetchPreamble v.steps)[k]? with
  | some s => exact lookup_optimizedSteps h hi hv hs hstatus
  | none =>
      -- an entry under the key would be a step of the variant
      rw [Option.map_none, Option.eq_none_iff_forall_ne_some]
      intro word hl
      rcases isEntry_of_lookup henc hl with ⟨j, u, l, t, status', he, heq⟩
      have hkey := MicrocodeKey.mk.inj (encodeKey_injective (Prod.mk.inj heq).1)
      have hj := eq_of_opcode_eq (nodup_of_isaCoverageValidator hvalid.coverage)
        (mem_optimized hi) he.instruction hkey.1
      subst hj
      have hu := variant_eq_of_status (hvalid.statuses _ (mem_optimized hi))
        (List.mem_map_of_mem hv) he.variant (s := status) hstatus (hkey.2.2 ▸ he.status)
      subst hu
      have hlen := ((encode_eq_ok.mp henc).1 _ he.instruction _ he.variant).steps
      have hl := (List.getElem?_eq_some_iff.mp he.step).1
      have hkl : k = l := by
        have hmod := congrArg BitVec.toNat hkey.2.1
        rw [BitVec.toNat_ofNat, BitVec.toNat_ofNat, Nat.mod_eq_of_lt (by omega),
          Nat.mod_eq_of_lt (by omega)] at hmod
        exact hmod
      subst hkl
      have hstep : (c.optimizedSteps is.fetchPreamble v.steps)[k]? = some t := he.step
      rw [hs] at hstep
      cases hstep

/-- The table of a compiled set holds nothing under other keys. -/
theorem exists_of_lookup (h : c.compile is = .ok p) {key : Nat} {word : ControlWord}
    (hl : p.table.lookup key = some word) :
    ∃ i ∈ is.instructions, ∃ v ∈ i.variants, ∃ k < 256, ∃ status ∈ c.statusEncoder.statusesOf v,
      key = encodeKey ⟨i.opcode, BitVec.ofNat 8 k, status⟩ := by
  rcases bind_eq_ok.mp h with ⟨ir, hir, henc⟩
  rcases (of_optimizedIr hir).2.2 with ⟨-, rfl⟩
  rcases isEntry_of_lookup henc hl with ⟨j, u, k, s, status, he, heq⟩
  have hlen := ((encode_eq_ok.mp henc).1 _ he.instruction _ he.variant).steps
  have hk := (List.getElem?_eq_some_iff.mp he.step).1
  rcases List.mem_map.mp he.instruction with ⟨i, hi, rfl⟩
  rcases List.mem_map.mp he.variant with ⟨v, hv, rfl⟩
  exact ⟨i, hi, v, hv, k, by omega, status, he.status, (Prod.mk.inj heq).1⟩

/-- Every variant of a compiled set covers a status. -/
theorem exists_status (h : c.compile is = .ok p) {i : Instruction} (hi : i ∈ is.instructions)
    {v : InstructionVariant} (hv : v ∈ i.variants) :
    ∃ status, status ∈ c.statusEncoder.statusesOf v := by
  rcases bind_eq_ok.mp h with ⟨ir, hir, henc⟩
  rcases (of_optimizedIr hir).2.2 with ⟨-, rfl⟩
  rcases ((encode_eq_ok.mp henc).1 _ (mem_optimized hi) _ (List.mem_map_of_mem hv)).statuses with
    ⟨statuses, hstatuses⟩
  have heq : c.statusEncoder.statusesOf v = statuses := StatusEncoder.statusesOf_eq hstatuses
  have hlen : 0 < statuses.length := by
    rw [(StatusEncoder.expandPartial_eq hstatuses).1, completions_length]
    exact Nat.two_pow_pos _
  rw [heq]
  exact List.exists_mem_of_length_pos hlen

/-! ## Compiling without the empty steps -/

theorem mem_withoutEmptySteps {i : Instruction} (hi : i ∈ is.instructions) :
    ({ i with variants := i.variants.map (·.mapSteps (stripSteps is.fetchPreamble)) } :
      Instruction) ∈ is.withoutEmptySteps.instructions :=
  List.mem_map_of_mem hi

theorem mem_variants_withoutEmptySteps {i : Instruction} {v : InstructionVariant}
    (hv : v ∈ i.variants) (preamble : List Step) :
    v.mapSteps (stripSteps preamble) ∈
      ({ i with variants := i.variants.map (·.mapSteps (stripSteps preamble)) } :
        Instruction).variants :=
  List.mem_map_of_mem hv

theorem words_withoutEmptySteps (c : Compiler) (is : InstructionSet) (v : InstructionVariant) :
    c.words is.withoutEmptySteps.fetchPreamble
        (v.mapSteps (stripSteps is.fetchPreamble)).steps =
      c.words is.fetchPreamble (stripSteps is.fetchPreamble v.steps) := rfl

/-- Sets with the same words under the same keys have the same table. -/
theorem lookup_eq_of_words {q : MicrocodeProgram} (hp : c.compile is = .ok p)
    (hq : c.compile is.withoutEmptySteps = .ok q)
    (hwords : ∀ i ∈ is.instructions, ∀ v ∈ i.variants,
      c.words is.fetchPreamble (stripSteps is.fetchPreamble v.steps) =
        c.words is.fetchPreamble v.steps) (key : Nat) :
    q.table.lookup key = p.table.lookup key := by
  have hsame : ∀ i ∈ is.instructions, ∀ v ∈ i.variants, ∀ k < 256,
      ∀ status ∈ c.statusEncoder.statusesOf v,
        q.table.lookup (encodeKey ⟨i.opcode, BitVec.ofNat 8 k, status⟩) =
          p.table.lookup (encodeKey ⟨i.opcode, BitVec.ofNat 8 k, status⟩) := by
    intro i hi v hv k hk status hstatus
    rw [lookup_eq_words hp hi hv hstatus hk, ← hwords i hi v hv]
    exact lookup_eq_words hq (mem_withoutEmptySteps hi) (mem_variants_withoutEmptySteps hv _)
      hstatus hk
  cases hl : p.table.lookup key with
  | some word =>
      rcases exists_of_lookup hp hl with ⟨i, hi, v, hv, k, hk, status, hstatus, rfl⟩
      rw [hsame i hi v hv k hk status hstatus, hl]
  | none =>
      rw [Option.eq_none_iff_forall_ne_some]
      intro word hl'
      rcases exists_of_lookup hq hl' with ⟨j, hj, u, hu, k, hk, status, hstatus, rfl⟩
      rcases List.mem_map.mp hj with ⟨i, hi, rfl⟩
      rcases List.mem_map.mp hu with ⟨v, hv, rfl⟩
      have heq := hsame i hi v hv k hk status hstatus
      rw [hl] at heq
      exact absurd (heq.symm.trans hl') (fun h => by cases h)

/-- The same table under every key means the same words in every variant. -/
theorem words_of_lookup_eq {q : MicrocodeProgram} (hp : c.compile is = .ok p)
    (hq : c.compile is.withoutEmptySteps = .ok q)
    (h : ∀ key, q.table.lookup key = p.table.lookup key) {i : Instruction}
    (hi : i ∈ is.instructions) {v : InstructionVariant} (hv : v ∈ i.variants) :
    c.words is.fetchPreamble (stripSteps is.fetchPreamble v.steps) =
      c.words is.fetchPreamble v.steps := by
  rcases exists_status hp hi hv with ⟨status, hstatus⟩
  have hi' := mem_withoutEmptySteps hi
  have hv' := mem_variants_withoutEmptySteps hv is.fetchPreamble
  apply List.ext_getElem?
  intro k
  by_cases hk : k < 256
  · rw [← lookup_eq_words hp hi hv hstatus hk, ← h]
    exact (lookup_eq_words hq hi' hv' hstatus hk).symm
  · have hlen := length_words_le hp hi hv
    have hlen' := length_words_le hq hi' hv'
    rw [words_withoutEmptySteps] at hlen'
    rw [List.getElem?_eq_none (by omega), List.getElem?_eq_none (by omega)]

theorem withoutEmptySteps_of_no_variants (h : ∀ i ∈ is.instructions, i.variants = []) :
    is.withoutEmptySteps = is := by
  unfold InstructionSet.withoutEmptySteps InstructionSet.mapVariants
  refine congrArg (InstructionSet.mk is.fetchPreamble) ?_
  conv_rhs => rw [← List.map_id is.instructions]
  refine List.map_congr_left fun i hi => ?_
  rw [h i hi, List.map_nil]
  rcases i with ⟨opcode, variants⟩
  exact congrArg (Instruction.mk opcode) (h _ hi).symm

/-- Where empty steps cost nothing, the set without them is valid again. -/
theorem valid_withoutEmptySteps (hinc : c.incrementControl = .scIncrement)
    (hreset : c.resetControl = .scReset) (hvalid : c.Valid (c.prepared is))
    (hcost : ∀ i ∈ is.instructions, ∀ v ∈ i.variants, v.Costless is.fetchPreamble) :
    c.Valid (c.prepared is.withoutEmptySteps) := by
  have hsteps : ∀ i ∈ is.instructions, ∀ v ∈ i.variants,
      StepsValid (prefixSteps is.fetchPreamble (stripSteps is.fetchPreamble v.steps)) := by
    intro i hi v hv
    refine stepsValid_strip (hcost i hi v hv) ⟨?_, ?_⟩
    · rw [prepared_eq] at hvalid
      have hchecked := hvalid.steps _ (List.mem_map_of_mem hi) _ (List.mem_map_of_mem hv)
      intro s hs
      apply hchecked
      show s ∈ sequenceSteps c.incrementControl c.resetControl _
      rw [hinc, hreset]
      exact hs
    · rw [prepared_eq] at hvalid
      have hchecked := hvalid.stages _ (List.mem_map_of_mem hi) _ (List.mem_map_of_mem hv)
      rw [← map_stage_sequenceSteps c.incrementControl c.resetControl]
      exact hchecked
  -- the pass and the preparation work on each variant by itself
  have hprepared : c.prepared is.withoutEmptySteps = is.mapVariants fun v =>
      v.mapSteps fun steps => c.preparedSteps is.fetchPreamble
        (stripSteps is.fetchPreamble steps) := by
    rw [prepared_eq]
    unfold InstructionSet.withoutEmptySteps InstructionSet.mapVariants
    simp only [List.map_map, Function.comp_def]
    rfl
  have horiginal := hvalid
  rw [prepared_eq] at horiginal
  rw [hprepared]
  -- one goal for each validator; the statuses and the opcodes are those of the source
  constructor
  · exact horiginal.preamble
  · intro i hi v hv s hs
    rcases List.mem_map.mp hi with ⟨j, hj, rfl⟩
    rcases List.mem_map.mp hv with ⟨w, hw, rfl⟩
    apply (hsteps j hj w hw).1
    rw [← hinc, ← hreset]
    exact hs
  · exact horiginal.preamble_stages
  · intro i hi v hv
    rcases List.mem_map.mp hi with ⟨j, hj, rfl⟩
    rcases List.mem_map.mp hv with ⟨w, hw, rfl⟩
    show StagesValid ((sequenceSteps c.incrementControl c.resetControl _).map (·.stage))
    rw [map_stage_sequenceSteps]
    exact (hsteps j hj w hw).2
  · intro i hi
    rcases List.mem_map.mp hi with ⟨j, hj, rfl⟩
    rw [statusValidateInstruction_mapSteps]
    have hstatus := horiginal.statuses _ (List.mem_map_of_mem hj)
    rw [statusValidateInstruction_mapSteps] at hstatus
    exact hstatus
  · rw [isaCoverageValidator_mapVariants]
    have hcoverage := horiginal.coverage
    rw [isaCoverageValidator_mapVariants] at hcoverage
    exact hcoverage
  · intro i hi v hv
    rcases List.mem_map.mp hi with ⟨j, hj, rfl⟩
    rcases List.mem_map.mp hv with ⟨w, hw, rfl⟩
    exact endsWith_sequenceSteps _ _ _

theorem fetchValidator_withoutEmptySteps
    (hfetch : fetchValidator (fetchTransformer is) = .ok ()) (hvalid : c.Valid (c.prepared is)) :
    fetchValidator (fetchTransformer is.withoutEmptySteps) = .ok () := by
  unfold fetchValidator
  show (if is.fetchPreamble.isEmpty then _ else _) = _
  split
  · rfl
  · rename_i hne
    have hne' : is.fetchPreamble ≠ [] := by
      rwa [List.isEmpty_iff] at hne
    rw [forVariants_eq_ok]
    intro i hi v hv
    rcases List.mem_map.mp hi with ⟨j, hj, rfl⟩
    rcases List.mem_map.mp hv with ⟨u, hu, rfl⟩
    rcases List.mem_map.mp hj with ⟨k, hk, rfl⟩
    rcases List.mem_map.mp hu with ⟨w, hw, rfl⟩
    have hstages := stages_of_validators hfetch hvalid hne' hk hw
    refine fetchValidateVariant_prefixSteps hstages.1 (fun s hs => hstages.2 s ?_) hne _ _ rfl
    change s ∈ stripSteps _ _ at hs
    unfold stripSteps at hs
    split at hs
    · exact hs
    · exact List.mem_of_mem_filter hs

/-- The empty steps of the source can go without a change of the table exactly when every one of
them is made up for by its neighbours: the optimizer that should remove them never sees them
empty. -/
theorem compile_withoutEmptySteps_iff (hinc : c.incrementControl = .scIncrement)
    (hreset : c.resetControl = .scReset) (h : c.compile is = .ok p) :
    (∃ q, c.compile is.withoutEmptySteps = .ok q ∧
        ∀ key, q.table.lookup key = p.table.lookup key) ↔
      ∀ i ∈ is.instructions, ∀ v ∈ i.variants, v.Costless is.fetchPreamble := by
  constructor
  · rintro ⟨q, hq, hlookup⟩ i hi v hv
    have hwords := words_of_lookup_eq h hq hlookup hi hv
    rw [words_eq hinc hreset, words_eq hinc hreset] at hwords
    exact (stepWords_strip_iff _ v).mp hwords
  · intro hcost
    have hwords : ∀ i ∈ is.instructions, ∀ v ∈ i.variants,
        c.words is.fetchPreamble (stripSteps is.fetchPreamble v.steps) =
          c.words is.fetchPreamble v.steps := by
      intro i hi v hv
      rw [words_eq hinc hreset, words_eq hinc hreset]
      exact (stepWords_strip_iff _ v).mpr (hcost i hi v hv)
    -- without variants the pass has no preamble to hold on to, and nothing to do
    by_cases hvariants : ∃ i ∈ is.instructions, i.variants ≠ []
    · rcases bind_eq_ok.mp h with ⟨ir, hir, henc⟩
      rcases of_optimizedIr hir with ⟨hfetch, hvalid, hvalid', rfl⟩
      have hfetched := fetchValidator_withoutEmptySteps hfetch hvalid
      have hstripped := valid_withoutEmptySteps hinc hreset hvalid hcost
      have hpre : ∃ i ∈ is.withoutEmptySteps.instructions, i.variants ≠ [] := by
        rcases hvariants with ⟨i, hi, hne⟩
        refine ⟨_, mem_withoutEmptySteps hi, fun hnil => hne ?_⟩
        exact List.map_eq_nil_iff.mp hnil
      have hir' := optimizedIr_of_valid hfetched (runAllValidators_iff.mpr hstripped) (.inl hpre)
      have hfinal := (of_optimizedIr hir').2.2.1
      -- the words are those before the pass, so their keys are in range
      have hencodable : ∀ i ∈ (c.optimized is.withoutEmptySteps).instructions,
          ∀ v ∈ i.variants, Encodable c.statusEncoder v := by
        intro i hi v hv
        refine ⟨expandPartial_of_statusValid (hfinal.statuses i hi) hv, ?_⟩
        rcases List.mem_map.mp hi with ⟨j, hj, rfl⟩
        rcases List.mem_map.mp hv with ⟨u, hu, rfl⟩
        rcases List.mem_map.mp hj with ⟨k, hk, rfl⟩
        rcases List.mem_map.mp hu with ⟨w, hw, rfl⟩
        have hlen := length_words_le h hk hw
        rw [← hwords k hk w hw] at hlen
        unfold words at hlen
        rw [List.length_map] at hlen
        exact hlen
      rcases exists_encode (nodup_of_isaCoverageValidator hfinal.coverage) hfinal.statuses
        hencodable with ⟨q, hq⟩
      have hcompile : c.compile is.withoutEmptySteps = .ok q := bind_eq_ok.mpr ⟨_, hir', hq⟩
      exact ⟨q, hcompile, lookup_eq_of_words h hcompile hwords⟩
    · have hnone : ∀ i ∈ is.instructions, i.variants = [] := by
        intro i hi
        by_contra hne
        exact hvariants ⟨i, hi, hne⟩
      rw [withoutEmptySteps_of_no_variants hnone]
      exact ⟨p, h, fun _ => rfl⟩

/-- The empty step of NOP stands behind a fetch that ends by incrementing the program counter. -/
theorem not_costless_nop :
    ¬InstructionVariant.Costless Irata.fetchPreamble ⟨[], [⟨0, []⟩], sorted_nil⟩ := by
  intro hcost
  have hown := hcost (.inl (List.cons_ne_nil _ _))
  rcases hown.last ⟨1, []⟩ rfl rfl with ⟨k, y, x, heq, hx, -, -⟩
  have hlast := congrArg List.getLast? heq
  rw [List.append_cons, List.getLast?_concat] at hlast
  cases hlast
  exact absurd (hx .pcIncrement List.mem_cons_self) (by decide)

/-- The default microcode has an empty step that takes a tick. -/
theorem compile_withoutEmptySteps_irata :
    ¬∃ q, Irata.compiler.compile Irata.instructionSet.withoutEmptySteps = .ok q ∧
      ∀ key, q.table.lookup key = Irata.program.table.lookup key := by
  intro h
  have hnop : (⟨0x02, [⟨[], [⟨0, []⟩], sorted_nil⟩]⟩ : Instruction) ∈
      Irata.instructionSet.instructions := by
    decide
  exact not_costless_nop ((compile_withoutEmptySteps_iff rfl rfl Irata.compile_instructionSet).mp h
    _ hnop _ List.mem_cons_self)

end Compiler

end Irata2.Microcode
