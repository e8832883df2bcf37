import Mathlib.Data.List.Basic
import Mathlib.Data.List.Forall2

/-!
# Writing into a list

A run of values is written over the values at a place of a list; several such writes follow one
another.  Where they do not overlap, each of them can be read back at the end.
-/

namespace Irata2.Library

universe u

variable {α : Type u}

/-- `new` is `old` with `bytes` written over it from place `k` on. -/
structure Writes (old : List α) (k : Nat) (bytes new : List α) : Prop where
  length : new.length = old.length
  fits : k + bytes.length ≤ old.length
  getElem? : ∀ j, new[j]? = if k ≤ j ∧ j < k + bytes.length then bytes[j - k]? else old[j]?

namespace Writes

variable {old mid new xs ys : List α} {k : Nat}

theorem nil (h : k ≤ old.length) : Writes old k [] old where
  length := rfl
  fits := h
  getElem? j := by
    exact (if_neg (show ¬(k ≤ j ∧ j < k + 0) by omega)).symm

theorem set (h : k < old.length) (b : α) : Writes old k [b] (old.set k b) where
  length := List.length_set
  fits := h
  getElem? j := by
    show _ = if k ≤ j ∧ j < k + 1 then _ else _
    rw [List.getElem?_set]
    by_cases hj : k = j
    · subst hj
      rw [if_pos rfl, if_pos h, if_pos (by omega), Nat.sub_self]
      rfl
    · rw [if_neg hj, if_neg (by omega)]

theorem append (h₁ : Writes old k xs mid) (h₂ : Writes mid (k + xs.length) ys new) :
    Writes old k (xs ++ ys) new where
  length := h₂.length.trans h₁.length
  fits := by
    have hfits := h₂.fits
    rw [h₁.length] at hfits
    rw [List.length_append]
    omega
  getElem? j := by
    rw [h₂.getElem?, h₁.getElem?, List.length_append]
    by_cases hx : k ≤ j ∧ j < k + xs.length
    · rw [if_neg (by omega), if_pos hx, if_pos (by omega), List.getElem?_append_left (by omega)]
    · by_cases hy : k + xs.length ≤ j ∧ j < k + xs.length + ys.length
      · rw [if_pos hy, if_pos (by omega), List.getElem?_append_right (by omega)]
        congr 1
        omega
      · rw [if_neg hy, if_neg hx, if_neg (by omega)]

end Writes

section Related

variable {β γ : Type*} {R : β → γ → Prop} {l : List β} {m : List γ}

theorem exists_right_of_forall₂ (h : List.Forall₂ R l m) {a : β} (ha : a ∈ l) :
    ∃ b ∈ m, R a b := by
  induction h with
  | nil => cases ha
  | cons hab _ ih =>
      rcases List.mem_cons.mp ha with rfl | ha
      · exact ⟨_, List.mem_cons_self, hab⟩
      · rcases ih ha with ⟨b, hb, hr⟩
        exact ⟨b, List.mem_cons_of_mem _ hb, hr⟩

theorem exists_left_of_forall₂ (h : List.Forall₂ R l m) {b : γ} (hb : b ∈ m) :
    ∃ a ∈ l, R a b := exists_right_of_forall₂ h.flip hb

/-- Related lists are pairwise related when what relates their elements carries it over. -/
theorem pairwise_of_forall₂ {S : β → β → Prop} {T : γ → γ → Prop}
    (h : ∀ a b c d, R a c → R b d → S a b → T c d) (hr : List.Forall₂ R l m)
    (hs : l.Pairwise S) : m.Pairwise T := by
  induction hr with
  | nil => exact .nil
  | @cons a c l m hac hlm ih =>
      rw [List.pairwise_cons] at hs ⊢
      refine ⟨fun d hd => ?_, ih hs.2⟩
      rcases exists_left_of_forall₂ hlm hd with ⟨b, hb, hbd⟩
      exact h a b c d hac hbd (hs.1 b hb)

theorem exists_split_of_forall₂ {front back : List β} {a : β}
    (h : List.Forall₂ R (front ++ a :: back) m) :
    ∃ front' b back', m = front' ++ b :: back' ∧ R a b ∧ List.Forall₂ R back back' := by
  induction front generalizing m with
  | nil =>
      rw [List.nil_append] at h
      rcases List.forall₂_cons_left_iff.mp h with ⟨b, back', hab, hback, rfl⟩
      exact ⟨[], b, back', rfl, hab, hback⟩
  | cons x front ih =>
      rcases List.forall₂_cons_left_iff.mp h with ⟨y, rest, -, hrest, rfl⟩
      rcases ih hrest with ⟨front', b, back', rfl, hab, hback⟩
      exact ⟨y :: front', b, back', rfl, hab, hback⟩

end Related

section Last

variable {P : α → Prop} {l : List α}

/-- The last of the elements with a property. -/
def IsLast (P : α → Prop) (l : List α) (x : α) : Prop :=
  P x ∧ ∃ front back, l = front ++ x :: back ∧ ∀ y ∈ back, ¬P y

/-- The first of the elements with a property. -/
def IsFirst (P : α → Prop) (l : List α) (x : α) : Prop :=
  P x ∧ ∃ front back, l = front ++ x :: back ∧ ∀ y ∈ front, ¬P y

theorem exists_isFirst {x : α} (hx : x ∈ l) (hP : P x) : ∃ y, IsFirst P l y := by
  induction l with
  | nil => cases hx
  | cons a l ih =>
      by_cases ha : P a
      · exact ⟨a, ha, [], l, rfl, fun y hy => (by cases hy)⟩
      · rcases List.mem_cons.mp hx with rfl | hx
        · exact absurd hP ha
        · rcases ih hx with ⟨y, hy, front, back, rfl, hfront⟩
          refine ⟨y, hy, a :: front, back, rfl, fun z hz => ?_⟩
          rcases List.mem_cons.mp hz with rfl | hz
          · exact ha
          · exact hfront z hz

theorem IsLast.unique {x y : α} (hx : IsLast P l x) (hy : IsLast P l y) : x = y := by
  rcases hx with ⟨hPx, front, back, rfl, hback⟩
  rcases hy with ⟨hPy, front', back', heq, hback'⟩
  rcases List.append_eq_append_iff.mp heq with ⟨mid, -, hmid⟩ | ⟨mid, -, hmid⟩
  · cases mid with
    | nil => exact (List.cons.inj hmid).1
    | cons a mid =>
        -- the other one would stand behind the last one
        have hmem : y ∈ back := by
          rw [(List.cons.inj hmid).2]
          exact List.mem_append_right _ List.mem_cons_self
        exact absurd hPy (hback y hmem)
  · cases mid with
    | nil => exact (List.cons.inj hmid).1.symm
    | cons a mid =>
        have hmem : x ∈ back' := by
          rw [(List.cons.inj hmid).2]
          exact List.mem_append_right _ List.mem_cons_self
        exact absurd hPx (hback' x hmem)

end Last

/-- A write reaches a place. -/
def Covers (w : Nat × List α) (j : Nat) : Prop := w.1 ≤ j ∧ j < w.1 + w.2.length

/-- One write after the other. -/
inductive WritesAll : List α → List (Nat × List α) → List α → Prop
  | nil (old : List α) : WritesAll old [] old
  | cons {old mid new : List α} {w : Nat × List α} {ws : List (Nat × List α)}
      (h : Writes old w.1 w.2 mid) (hrest : WritesAll mid ws new) : WritesAll old (w :: ws) new

namespace WritesAll

variable {old new : List α} {ws : List (Nat × List α)}

theorem length (h : WritesAll old ws new) : new.length = old.length := by
  induction h with
  | nil => rfl
  | cons h _ ih => exact ih.trans h.length

theorem fits (h : WritesAll old ws new) {w : Nat × List α} (hw : w ∈ ws) :
    w.1 + w.2.length ≤ old.length := by
  induction h with
  | nil => cases hw
  | @cons old mid new v ws h hrest ih =>
      rcases List.mem_cons.mp hw with rfl | hw
      · exact h.fits
      · rw [← h.length]
        exact ih hw

/-- A place that no write reaches keeps its value. -/
theorem getElem?_of_not_covered (h : WritesAll old ws new) {j : Nat}
    (hj : ∀ w ∈ ws, ¬Covers w j) : new[j]? = old[j]? := by
  induction h with
  | nil => rfl
  | @cons old mid new w ws h hrest ih =>
      rw [ih fun v hv => hj v (List.mem_cons_of_mem _ hv), h.getElem?]
      exact if_neg (hj w List.mem_cons_self)

/-- The last write to a place is the one that counts. -/
theorem getElem?_of_last {front back : List (Nat × List α)} {w : Nat × List α}
    (h : WritesAll old (front ++ w :: back) new) {j : Nat} (hj : Covers w j)
    (hlast : ∀ v ∈ back, ¬Covers v j) : new[j]? = w.2[j - w.1]? := by
  induction front generalizing old with
  | nil =>
      cases h with
      | cons hw hrest =>
          rw [hrest.getElem?_of_not_covered hlast, hw.getElem?]
          exact if_pos hj
  | cons v front ih =>
      cases h with
      | cons _ hrest => exact ih hrest

/-- Where the writes are disjoint, what one of them wrote is there at the end. -/
theorem getElem?_of_covered (h : WritesAll old ws new)
    (hdisjoint : ws.Pairwise fun v w => ∀ j, ¬(Covers v j ∧ Covers w j)) {w : Nat × List α}
    (hw : w ∈ ws) {j : Nat} (hj : Covers w j) : new[j]? = w.2[j - w.1]? := by
  induction h with
  | nil => cases hw
  | @cons old mid new v ws h hrest ih =>
      rw [List.pairwise_cons] at hdisjoint
      rcases List.mem_cons.mp hw with rfl | hw
      · -- no later write reaches the place
        rw [hrest.getElem?_of_not_covered fun v hv hc => hdisjoint.1 v hv j ⟨hj, hc⟩, h.getElem?]
        exact if_pos hj
      · exact ih hdisjoint.2 hw

end WritesAll

end Irata2.Library
