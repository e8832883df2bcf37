import Mathlib.Data.List.Basic
import Mathlib.Logic.Basic

/-!
# Runs of programs with state and exceptions

How a program in `EStateM` runs from a given state, one bind or one loop iteration at a time.
-/

namespace Irata2.Library.StateRun

universe u v

variable {ε σ α β : Type u}

theorem bind_of_ok {x : EStateM ε σ α} {f : α → EStateM ε σ β} {s s' : σ} {a : α}
    (h : x s = .ok a s') : (x >>= f) s = f a s' := by
  show EStateM.bind x f s = _
  unfold EStateM.bind
  rw [h]

theorem bind_of_error {x : EStateM ε σ α} {f : α → EStateM ε σ β} {s s' : σ} {e : ε}
    (h : x s = .error e s') : (x >>= f) s = .error e s' := by
  show EStateM.bind x f s = _
  unfold EStateM.bind
  rw [h]

theorem ofExcept_ok {a : α} {x : Except ε α} (h : x = .ok a) (s : σ) :
    (MonadExcept.ofExcept x : EStateM ε σ α) s = .ok a s := by
  rw [h]
  rfl

theorem ofExcept_error {e : ε} {x : Except ε α} (h : x = .error e) (s : σ) :
    (MonadExcept.ofExcept x : EStateM ε σ α) s = .error e s := by
  rw [h]
  rfl

section Loops

variable {γ : Type v}

/-- A loop whose iterations all succeed runs through the states of a fold.  `view` places the
fold's accumulator in the state of the program. -/
theorem forM_of_foldl {τ : Type*} {f : γ → EStateM ε σ PUnit} {g : τ → γ → τ} (view : τ → σ)
    {P : List γ → τ → Prop}
    (hstep : ∀ x l t, P (x :: l) t → f x (view t) = .ok ⟨⟩ (view (g t x)) ∧ P l (g t x))
    (l : List γ) (t : τ) (h : P l t) : l.forM f (view t) = .ok ⟨⟩ (view (l.foldl g t)) := by
  induction l generalizing t with
  | nil => rfl
  | cons x l ih =>
      have hx := hstep x l t h
      show (f x >>= fun _ => l.forM f) (view t) = _
      rw [bind_of_ok hx.1, ih _ hx.2, List.foldl_cons]

theorem forM_append_of_ok {f : γ → EStateM ε σ PUnit} {l m : List γ} {s s' : σ}
    (h : l.forM f s = .ok ⟨⟩ s') : (l ++ m).forM f s = m.forM f s' := by
  induction l generalizing s with
  | nil =>
      cases h
      rfl
  | cons x l ih =>
      show (f x >>= fun _ => (l ++ m).forM f) s = _
      change (f x >>= fun _ => l.forM f) s = _ at h
      cases hx : f x s with
      | ok u t =>
          rw [bind_of_ok hx] at h ⊢
          exact ih h
      | error e t =>
          rw [bind_of_error hx] at h
          cases h

theorem forM_cons_of_ok {f : γ → EStateM ε σ PUnit} {x : γ} {l : List γ} {s s' : σ}
    (h : f x s = .ok ⟨⟩ s') : (x :: l).forM f s = l.forM f s' :=
  bind_of_ok h

theorem forM_cons_of_error {f : γ → EStateM ε σ PUnit} {x : γ} {l : List γ} {s s' : σ} {e : ε}
    (h : f x s = .error e s') : (x :: l).forM f s = .error e s' :=
  bind_of_error h

/-- Iterations that change nothing can be left out of a fold. -/
theorem foldl_eq_foldl_filter {τ : Type*} {g : τ → γ → τ} {p : γ → Bool}
    (h : ∀ t x, p x = false → g t x = t) (l : List γ) (t : τ) :
    l.foldl g t = (l.filter p).foldl g t := by
  rw [List.foldl_filter]
  congr 1
  funext t x
  cases hp : p x with
  | true => rfl
  | false => exact h t x hp

/-- A fold whose iterations agree pointwise. -/
theorem foldl_congr_fun {τ : Type*} {g g' : τ → γ → τ} (h : ∀ t x, g t x = g' t x)
    (l : List γ) (t : τ) : l.foldl g t = l.foldl g' t := by
  have hg : g = g' := by
    funext t x
    exact h t x
  rw [hg]

end Loops

end Irata2.Library.StateRun
