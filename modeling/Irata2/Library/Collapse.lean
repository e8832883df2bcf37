import Mathlib.Data.List.Basic
import Mathlib.Data.List.Infix

/-!
# Collapsing neighbours

A pass over a list keeps the last item in hand.  It fuses the next item into it where `f` allows,
and otherwise emits it and goes on with the next item.  Here are the properties of the items and
of their order that such a pass preserves, whatever `f` is.
-/

namespace Irata2.Library

universe u v

variable {α : Type u} {β : Type v}

def collapseInto (f : α → α → Option α) (last : α) : List α → List α
  | [] => [last]
  | x :: xs =>
      match f last x with
      | some y => collapseInto f y xs
      | none => last :: collapseInto f x xs

def collapse (f : α → α → Option α) : List α → List α
  | [] => []
  | x :: xs => collapseInto f x xs

variable {f : α → α → Option α}

theorem collapseInto_cons_some {last x y : α} (h : f last x = some y) (xs : List α) :
    collapseInto f last (x :: xs) = collapseInto f y xs := by
  rw [collapseInto, h]

theorem collapseInto_cons_none {last x : α} (h : f last x = none) (xs : List α) :
    collapseInto f last (x :: xs) = last :: collapseInto f x xs := by
  rw [collapseInto, h]

theorem collapseInto_ne_nil (last : α) (xs : List α) : collapseInto f last xs ≠ [] := by
  induction xs generalizing last with
  | nil => exact List.cons_ne_nil last []
  | cons x xs ih =>
      cases h : f last x with
      | some y =>
          rw [collapseInto_cons_some h]
          exact ih y
      | none =>
          rw [collapseInto_cons_none h]
          exact List.cons_ne_nil last _

/-- A property of items that fusing preserves holds of what comes out. -/
theorem forall_mem_collapse {P : α → Prop} (hf : ∀ a b c, f a b = some c → P a → P b → P c)
    {l : List α} (h : ∀ x ∈ l, P x) : ∀ x ∈ collapse f l, P x := by
  cases l with
  | nil => exact h
  | cons x xs =>
      show ∀ y ∈ collapseInto f x xs, P y
      induction xs generalizing x with
      | nil => exact h
      | cons y ys ih =>
          rw [List.forall_mem_cons, List.forall_mem_cons] at h
          cases hxy : f x y with
          | some z =>
              rw [collapseInto_cons_some hxy]
              exact ih z (List.forall_mem_cons.mpr ⟨hf x y z hxy h.1 h.2.1, h.2.2⟩)
          | none =>
              rw [collapseInto_cons_none hxy]
              exact List.forall_mem_cons.mpr ⟨h.1, ih y (List.forall_mem_cons.mpr h.2)⟩

/-! ## Items with a key

Only items with the same key fuse, and the result has their key. -/

section Key

variable {κ : α → β} (hκ : ∀ a b c, f a b = some c → κ b = κ a ∧ κ c = κ a)

include hκ

/-- Items with different keys on the two sides of a border do not fuse across it. -/
theorem collapse_append {l m : List α} (h : ∀ a ∈ l, ∀ b ∈ m, κ a ≠ κ b) :
    collapse f (l ++ m) = collapse f l ++ collapse f m := by
  cases l with
  | nil => rfl
  | cons x xs =>
      show collapseInto f x (xs ++ m) = collapseInto f x xs ++ collapse f m
      induction xs generalizing x with
      | nil =>
          cases m with
          | nil => rfl
          | cons b bs =>
              have hnone : f x b = none := by
                cases hxb : f x b with
                | none => rfl
                | some c =>
                    have hne := h x List.mem_cons_self b List.mem_cons_self
                    exact absurd (hκ x b c hxb).1.symm hne
              exact collapseInto_cons_none hnone bs
      | cons y ys ih =>
          rw [List.forall_mem_cons, List.forall_mem_cons] at h
          cases hxy : f x y with
          | some z =>
              have hz : ∀ b ∈ m, κ z ≠ κ b := by
                rw [(hκ x y z hxy).2]
                exact h.1
              rw [List.cons_append, collapseInto_cons_some hxy, collapseInto_cons_some hxy,
                ih z (List.forall_mem_cons.mpr ⟨hz, h.2.2⟩)]
          | none =>
              rw [List.cons_append, collapseInto_cons_none hxy, collapseInto_cons_none hxy,
                ih y (List.forall_mem_cons.mpr h.2), List.cons_append]

/-- The keys that come out are the keys that went in, in order, without some repetitions. -/
theorem map_collapseInto (last : α) (xs : List α) :
    ((collapseInto f last xs).map κ).Sublist (κ last :: xs.map κ) ∧
      (∀ k, k ∈ (collapseInto f last xs).map κ ↔ k ∈ κ last :: xs.map κ) ∧
      ((collapseInto f last xs).map κ).head? = some (κ last) := by
  induction xs generalizing last with
  | nil => exact ⟨List.Sublist.refl _, fun _ => Iff.rfl, rfl⟩
  | cons x xs ih =>
      cases hx : f last x with
      | some y =>
          rcases hκ last x y hx with ⟨hkx, hky⟩
          rcases ih y with ⟨hsub, hmem, hhead⟩
          rw [collapseInto_cons_some hx, List.map_cons, hkx]
          rw [hky] at hsub hmem hhead
          refine ⟨hsub.trans ((List.sublist_cons_self _ _).cons_cons _), fun k => ?_, hhead⟩
          rw [hmem, List.mem_cons, List.mem_cons, List.mem_cons, or_self_left]
      | none =>
          rcases ih x with ⟨hsub, hmem, -⟩
          rw [collapseInto_cons_none hx, List.map_cons, List.map_cons]
          refine ⟨hsub.cons_cons _, fun k => ?_, rfl⟩
          rw [List.mem_cons, hmem, List.mem_cons (b := κ last)]

end Key

/-! ## The end of a list -/

/-- Every item but the last satisfies `P`, and the last satisfies `Q`. -/
def EndsWith (P Q : α → Prop) : List α → Prop
  | [] => True
  | x :: xs => (if xs = [] then Q x else P x) ∧ EndsWith P Q xs

theorem endsWith_cons {P Q : α → Prop} {x : α} {xs : List α} (hxs : xs ≠ []) :
    EndsWith P Q (x :: xs) ↔ P x ∧ EndsWith P Q xs := by
  show (if xs = [] then Q x else P x) ∧ EndsWith P Q xs ↔ _
  rw [if_neg hxs]

theorem endsWith_cons_cons {P Q : α → Prop} {x y : α} {xs : List α} :
    EndsWith P Q (x :: y :: xs) ↔ P x ∧ EndsWith P Q (y :: xs) :=
  endsWith_cons (List.cons_ne_nil y xs)

/-- Fusing keeps the shape of the end when the result has the properties of the later item. -/
theorem endsWith_collapse {P Q : α → Prop} (hP : ∀ a b c, f a b = some c → P b → P c)
    (hQ : ∀ a b c, f a b = some c → Q b → Q c) {l : List α} (h : EndsWith P Q l) :
    EndsWith P Q (collapse f l) := by
  cases l with
  | nil => exact h
  | cons x xs =>
      show EndsWith P Q (collapseInto f x xs)
      induction xs generalizing x with
      | nil => exact h
      | cons y ys ih =>
          rw [endsWith_cons_cons] at h
          cases hxy : f x y with
          | some z =>
              rw [collapseInto_cons_some hxy]
              refine ih z ?_
              cases ys with
              | nil => exact ⟨hQ x y z hxy h.2.1, trivial⟩
              | cons w ws =>
                  rw [endsWith_cons_cons] at h ⊢
                  exact ⟨hP x y z hxy h.2.1, h.2.2⟩
          | none =>
              rw [collapseInto_cons_none hxy, endsWith_cons (collapseInto_ne_nil y ys)]
              exact ⟨h.1, ih y h.2⟩

theorem endsWith_iff_getElem? {P Q : α → Prop} {l : List α} :
    EndsWith P Q l ↔
      ∀ k x, l[k]? = some x → if k + 1 = l.length then Q x else P x := by
  induction l with
  | nil => exact ⟨fun _ k x h => (by cases h), fun _ => trivial⟩
  | cons x xs ih =>
      show (if xs = [] then Q x else P x) ∧ EndsWith P Q xs ↔ _
      rw [ih]
      constructor
      · rintro ⟨hx, hxs⟩ k y hk
        cases k with
        | zero =>
            cases hk
            rw [List.length_cons]
            by_cases hnil : xs = []
            · rw [if_pos hnil] at hx
              rw [hnil]
              exact hx
            · rw [if_neg hnil] at hx
              rw [if_neg fun h => hnil (List.length_eq_zero_iff.mp (by omega))]
              exact hx
        | succ k =>
            have hy := hxs k y hk
            rw [List.length_cons]
            simp only [Nat.add_right_cancel_iff]
            exact hy
      · intro h
        refine ⟨?_, fun k y hk => ?_⟩
        · have hx := h 0 x rfl
          rw [List.length_cons] at hx
          by_cases hnil : xs = []
          · rw [if_pos hnil]
            rw [hnil] at hx
            exact hx
          · rw [if_neg hnil]
            rw [if_neg fun h => hnil (List.length_eq_zero_iff.mp (by omega))] at hx
            exact hx
        · have hy := h (k + 1) y hk
          rw [List.length_cons] at hy
          simp only [Nat.add_right_cancel_iff] at hy
          exact hy

end Irata2.Library
