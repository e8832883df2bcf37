import Mathlib.Data.List.Destutter

/-!
# Runs of equal items

One item is left of every run of equal neighbours.  An item that is put into a list makes a run of
its own, and perhaps splits one, unless it is equal to one of its two neighbours.
-/

namespace Irata2.Library

universe u v

section Runs

variable {α : Type u} [DecidableEq α]

/-- One item of every run of equal neighbours. -/
def runs (l : List α) : List α := l.destutter (· ≠ ·)

theorem runs_cons_cons (a b : α) (l : List α) :
    runs (a :: b :: l) = (if a = b then [] else [a]) ++ runs (b :: l) := by
  unfold runs
  rw [List.destutter_cons_cons, List.destutter_cons']
  by_cases h : a = b
  · rw [if_neg (not_not.mpr h), if_pos h, h]
    rfl
  · rw [if_pos h, if_neg h]
    rfl

theorem length_runs_cons_cons (a b : α) (l : List α) :
    (runs (a :: b :: l)).length = (if a = b then 0 else 1) + (runs (b :: l)).length := by
  rw [runs_cons_cons, List.length_append]
  by_cases h : a = b
  · rw [if_pos h, if_pos h]
    rfl
  · rw [if_neg h, if_neg h]
    rfl

theorem mem_runs {x : α} {l : List α} : x ∈ runs l ↔ x ∈ l := by
  induction l with
  | nil => exact Iff.rfl
  | cons a l ih =>
      cases l with
      | nil => exact Iff.rfl
      | cons b l =>
          rw [runs_cons_cons, List.mem_append, ih, List.mem_cons]
          by_cases h : a = b
          · rw [if_pos h, h, List.mem_cons]
            -- the item left out is the head of what follows
            simp
          · rw [if_neg h, List.mem_singleton, ← List.mem_cons, ← List.mem_cons]

theorem head?_runs (l : List α) : (runs l).head? = l.head? := by
  induction l with
  | nil => rfl
  | cons a l ih =>
      cases l with
      | nil => rfl
      | cons b l =>
          rw [runs_cons_cons]
          by_cases h : a = b
          · rw [if_pos h, List.nil_append, ih, h]
            rfl
          · rw [if_neg h]
            rfl

theorem getLast?_runs (l : List α) : (runs l).getLast? = l.getLast? := by
  induction l with
  | nil => rfl
  | cons a l ih =>
      cases l with
      | nil => rfl
      | cons b l =>
          have hlast : (runs (b :: l)).getLast? = some ((b :: l).getLast (List.cons_ne_nil b l)) := by
            rw [ih, List.getLast?_eq_getLast_of_ne_nil]
          rw [runs_cons_cons, List.getLast?_append, hlast, Option.some_or, List.getLast?_cons_cons,
            List.getLast?_eq_getLast_of_ne_nil (List.cons_ne_nil b l)]

/-- A last item that differs from the one before it is a run of its own. -/
theorem runs_concat {l : List α} {z : α} (h : l.getLast? ≠ some z) :
    runs (l ++ [z]) = runs l ++ [z] := by
  induction l with
  | nil => rfl
  | cons a l ih =>
      cases l with
      | nil =>
          have hne : a ≠ z := fun heq => h (congrArg some heq)
          show runs (a :: z :: []) = [a] ++ [z]
          rw [runs_cons_cons, if_neg hne]
          rfl
      | cons b l =>
          rw [List.getLast?_cons_cons] at h
          show runs (a :: b :: (l ++ [z])) = runs (a :: b :: l) ++ [z]
          rw [runs_cons_cons, runs_cons_cons, List.append_assoc, ← ih h]
          rfl

theorem runs_append_twice (l r : List α) (e : α) :
    runs (l ++ e :: e :: r) = runs (l ++ e :: r) := by
  have hhead : runs (e :: e :: r) = runs (e :: r) := by
    rw [runs_cons_cons, if_pos rfl, List.nil_append]
  induction l with
  | nil => exact hhead
  | cons c l ih =>
      cases l with
      | nil =>
          show runs (c :: e :: e :: r) = runs (c :: e :: r)
          rw [runs_cons_cons, hhead, ← runs_cons_cons]
      | cons d l =>
          show runs (c :: d :: (l ++ e :: e :: r)) = runs (c :: d :: (l ++ e :: r))
          rw [runs_cons_cons, runs_cons_cons c d (l ++ e :: r)]
          exact congrArg _ ih

/-- An item beside an equal one makes no difference. -/
theorem runs_insert_eq {l r : List α} {e : α} (h : l.getLast? = some e ∨ r.head? = some e) :
    runs (l ++ e :: r) = runs (l ++ r) := by
  rcases h with h | h
  · obtain ⟨k, rfl⟩ := List.getLast?_eq_some_iff.mp h
    rw [List.append_assoc, List.append_assoc]
    exact runs_append_twice k r e
  · obtain ⟨t, rfl⟩ := List.head?_eq_some_iff.mp h
    exact runs_append_twice l t e

/-- An item that differs from its neighbours makes a run of its own. -/
theorem length_runs_insert_lt {l r : List α} {e : α} (hl : l.getLast? ≠ some e)
    (hr : r.head? ≠ some e) : (runs (l ++ r)).length < (runs (l ++ e :: r)).length := by
  have hcons : ∀ r : List α, r.head? ≠ some e → (runs (e :: r)).length = 1 + (runs r).length := by
    intro r hr
    cases r with
    | nil => rfl
    | cons b r =>
        have hne : e ≠ b := fun heq => hr (congrArg some heq.symm)
        rw [length_runs_cons_cons, if_neg hne]
  induction l with
  | nil =>
      show (runs r).length < (runs (e :: r)).length
      rw [hcons r hr]
      omega
  | cons c l ih =>
      cases l with
      | nil =>
          have hne : c ≠ e := fun heq => hl (congrArg some heq)
          show (runs (c :: r)).length < (runs (c :: e :: r)).length
          rw [length_runs_cons_cons, if_neg hne, hcons r hr]
          cases r with
          | nil =>
              show 1 < 1 + (1 + 0)
              omega
          | cons b r =>
              rw [length_runs_cons_cons]
              split <;> omega
      | cons d l =>
          have hlast : (d :: l).getLast? ≠ some e := by
            rw [List.getLast?_cons_cons] at hl
            exact hl
          have hrest : (runs (d :: (l ++ r))).length < (runs (d :: (l ++ e :: r))).length :=
            ih hlast
          show (runs (c :: d :: (l ++ r))).length < (runs (c :: d :: (l ++ e :: r))).length
          rw [length_runs_cons_cons, length_runs_cons_cons c d (l ++ e :: r)]
          omega

theorem length_runs_insert_le (l r : List α) (e : α) :
    (runs (l ++ r)).length ≤ (runs (l ++ e :: r)).length := by
  by_cases h : l.getLast? = some e ∨ r.head? = some e
  · rw [runs_insert_eq h]
  · rw [not_or] at h
    exact (length_runs_insert_lt h.1 h.2).le

end Runs

/-! ## Items that are dropped -/

section Filter

variable {α : Type u} {β : Type v} (g : β → α) (keep : β → Bool)

/-- Every item of `r` that is dropped equals, under `g`, the last item kept before it or the item
right behind it. -/
def Absorbed (l r : List β) (w : List α) : Prop :=
  ∀ before e behind, r = before ++ e :: behind → keep e = false →
    ((l ++ before.filter keep).getLast?.map g = some (g e)) ∨
      (behind.map g ++ w).head? = some (g e)

variable {g : β → α} {keep : β → Bool} {l r : List β} {w : List α} {x : β}

theorem absorbed_nil : Absorbed g keep l [] w := by
  intro before e behind h
  cases before <;> cases h

theorem absorbed_cons_keep (hx : keep x = true) :
    Absorbed g keep l (x :: r) w ↔ Absorbed g keep (l ++ [x]) r w := by
  have hfilter : ∀ before : List β, l ++ (x :: before).filter keep =
      (l ++ [x]) ++ before.filter keep := by
    intro before
    rw [List.filter_cons, if_pos hx, List.append_cons]
  constructor
  · intro h before e behind hr he
    have hcase := h (x :: before) e behind (congrArg (x :: ·) hr) he
    rw [hfilter] at hcase
    exact hcase
  · intro h before e behind hr he
    cases before with
    | nil =>
        cases hr
        rw [hx] at he
        cases he
    | cons b before =>
        cases hr
        rw [hfilter]
        exact h before e behind rfl he

theorem absorbed_cons_drop (hx : keep x = false) :
    Absorbed g keep l (x :: r) w ↔
      (l.getLast?.map g = some (g x) ∨ (r.map g ++ w).head? = some (g x)) ∧
        Absorbed g keep l r w := by
  have hfilter : ∀ before : List β, (x :: before).filter keep = before.filter keep := by
    intro before
    rw [List.filter_cons, hx]
    rfl
  constructor
  · intro h
    refine ⟨?_, ?_⟩
    · have hcase := h [] x r rfl hx
      rw [List.filter_nil, List.append_nil] at hcase
      exact hcase
    · intro before e behind hr he
      have hcase := h (x :: before) e behind (congrArg (x :: ·) hr) he
      rw [hfilter] at hcase
      exact hcase
  · rintro ⟨hhead, h⟩ before e behind hr he
    cases before with
    | nil =>
        cases hr
        rw [List.filter_nil, List.append_nil]
        exact hhead
    | cons b before =>
        cases hr
        rw [hfilter]
        exact h before e behind rfl he

/-- With the prefix, the item and the rest told apart. -/
theorem map_append_cons (l r : List β) (x : β) (w : List α) :
    (l ++ x :: r).map g ++ w = l.map g ++ g x :: (r.map g ++ w) := by
  rw [List.map_append, List.map_cons, List.append_assoc, List.cons_append]

theorem map_append_rest (l r : List β) (w : List α) :
    (l ++ r).map g ++ w = l.map g ++ (r.map g ++ w) := by
  rw [List.map_append, List.append_assoc]

variable [DecidableEq α]

theorem runs_filter_of_absorbed (h : Absorbed g keep l r w) :
    runs ((l ++ r.filter keep).map g ++ w) = runs ((l ++ r).map g ++ w) := by
  induction r generalizing l with
  | nil => rfl
  | cons x r ih =>
      cases hx : keep x with
      | true =>
          have hrest := ih ((absorbed_cons_keep hx).mp h)
          rw [List.filter_cons, if_pos hx, List.append_cons, hrest, ← List.append_cons]
      | false =>
          obtain ⟨hhead, hrest⟩ := (absorbed_cons_drop hx).mp h
          rw [List.filter_cons, hx]
          show runs ((l ++ r.filter keep).map g ++ w) = _
          rw [ih hrest, map_append_rest, map_append_cons]
          rw [← List.getLast?_map] at hhead
          exact (runs_insert_eq hhead).symm

theorem length_runs_filter_le (l r : List β) (w : List α) :
    (runs ((l ++ r.filter keep).map g ++ w)).length ≤ (runs ((l ++ r).map g ++ w)).length := by
  induction r generalizing l with
  | nil => exact le_refl _
  | cons x r ih =>
      cases hx : keep x with
      | true =>
          rw [List.filter_cons, if_pos hx, List.append_cons, List.append_cons l x r]
          exact ih (l ++ [x])
      | false =>
          rw [List.filter_cons, hx]
          have hinsert := length_runs_insert_le (l.map g) (r.map g ++ w) (g x)
          rw [← map_append_rest, ← map_append_cons] at hinsert
          exact (ih l).trans hinsert

/-- Dropping items keeps the number of runs only when every one of them is absorbed. -/
theorem absorbed_of_length_runs
    (h : (runs ((l ++ r.filter keep).map g ++ w)).length = (runs ((l ++ r).map g ++ w)).length) :
    Absorbed g keep l r w := by
  induction r generalizing l with
  | nil => exact absorbed_nil
  | cons x r ih =>
      cases hx : keep x with
      | true =>
          rw [List.filter_cons, if_pos hx, List.append_cons, List.append_cons l x r] at h
          exact (absorbed_cons_keep hx).mpr (ih h)
      | false =>
          rw [List.filter_cons, hx] at h
          change (runs ((l ++ r.filter keep).map g ++ w)).length = _ at h
          have hfilter := @length_runs_filter_le _ _ g keep _ l r w
          have hinsert := length_runs_insert_le (l.map g) (r.map g ++ w) (g x)
          rw [← map_append_rest, ← map_append_cons] at hinsert
          refine (absorbed_cons_drop hx).mpr ⟨?_, ih (by omega)⟩
          by_contra hnot
          rw [not_or, ← List.getLast?_map] at hnot
          have hlt := length_runs_insert_lt hnot.1 hnot.2
          rw [← map_append_rest, ← map_append_cons] at hlt
          omega

end Filter

end Irata2.Library
