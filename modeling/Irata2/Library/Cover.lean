import Mathlib.Data.List.Nodup
import Mathlib.Data.List.Perm.Subperm

/-!
# Covers of a finite list

A family of lists partitions a list when its concatenation has no duplicates and is as long.
-/

namespace Irata2.Library

variable {α β : Type*}

/-- A duplicate-free list inside a list that is no longer contains all of it. -/
theorem mem_of_nodup_subset_length {l m : List α} (hl : l.Nodup) (hsub : l ⊆ m)
    (hlen : m.length ≤ l.length) {x : α} (hx : x ∈ m) : x ∈ l :=
  ((hl.subperm hsub).perm_of_length_le hlen).mem_iff.mpr hx

/-- In a concatenation without duplicates every element comes from one member of the family. -/
theorem filter_eq_singleton_of_nodup_flatMap [DecidableEq β] {l : List α} {f : α → List β}
    (h : (l.flatMap f).Nodup) {x : β} (hx : x ∈ l.flatMap f) :
    ∃ a, l.filter (fun a => decide (x ∈ f a)) = [a] := by
  induction l with
  | nil => cases hx
  | cons a l ih =>
      rw [List.flatMap_cons] at h hx
      rw [List.nodup_append] at h
      rcases List.mem_append.mp hx with ha | hl
      · -- the head holds `x`, so nothing after it does
        have hrest : l.filter (fun a => decide (x ∈ f a)) = [] := by
          rw [List.filter_eq_nil_iff]
          intro b hb hxb
          rw [decide_eq_true_eq] at hxb
          exact h.2.2 x ha x (List.mem_flatMap.mpr ⟨b, hb, hxb⟩) rfl
        refine ⟨a, ?_⟩
        rw [List.filter_cons_of_pos (by rw [decide_eq_true_eq]; exact ha), hrest]
      · rcases ih h.2.1 hl with ⟨b, hb⟩
        refine ⟨b, ?_⟩
        have ha : x ∉ f a := fun ha => h.2.2 x ha x hl rfl
        rw [List.filter_cons_of_neg (by rw [decide_eq_true_eq]; exact ha), hb]

end Irata2.Library
